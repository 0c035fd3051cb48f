import Evtsim.Simulator
import Evtsim.Boe.Emission

/-!
# The execution quantity of both sessions

`bm execute n` arms the shared manager with `n` shares. `boe_session::execution_logic` takes the
quantity for the first order it fills and gets 0 from then on. `ouch_session::execution_logic` leaves
`exe_qty` at its default, so an order that it fills gets a random lot whatever is armed.

The balance of shares reported and shares still armed never grows while OUCH fills nothing.
-/

namespace Evtsim

open BehaviorManager Machine Wire Session

variable {D W : Type}

/-! ## Shares reported by OUCH -/

namespace OuchSession

open Ouch

/-- The shares of the `Executed` messages. -/
def executions (ms : List OutMsg) : List UInt32 :=
  ms.filterMap fun m =>
    match m with
    | .executed m => some m.executedQty
    | _ => none

/-- The number of shares reported executed. -/
def reportedShares (s : OuchSession W) : ℕ := ((executions s.pendingOutMessages).map UInt32.toNat).sum

/-- What sends no execution reports no shares. -/
theorem reportedShares_of_emits {K : List Kind} {s s' : OuchSession W} (h : Emits K s s')
    (hK : .executed ∉ K) : s'.reportedShares = s.reportedShares := by
  have hsame : executions s'.pendingOutMessages = executions s.pendingOutMessages := by
    apply h.filterMap
    intro m hm
    cases m
    case executed => exact (hK hm).elim
    all_goals rfl
  unfold reportedShares
  rw [hsame]

variable (E : Env W)

/-- The random lot is above the minimum of the order. -/
def Blocked (o : OuchOrder) (w : W) : Prop :=
  o.minQty ≠ 0 ∧ (o.minQty.toNat : ℤ) < min ((1 + (E.rand w).1 % 10 : ℤ) * 100) o.remainingQty

/-- A visit fills shares: the gate is open, the order has not expired, is not immediate-or-cancel and
still active, and its minimum does not stand in the way. -/
def Fills (st : Pass W) (k : Key) : Prop :=
  ∃ o, st.1.activeOrders.lookup k = some o ∧
    let g := E.gate .execution st.1.env
    let ex := o.expired E g.2
    let a := ex.2.1.stillActive E ex.2.2
    g.1 = true ∧ ex.1 = false ∧ ex.2.1.timeInForce ≠ 0 ∧ a.1 = true ∧ ¬ Blocked E a.2.1 a.2.2

/-- A tick fills no order, as the earlier passes of the tick leave them. -/
def FillsNothing (s : OuchSession W) : Event → Prop
  | .marketLogic =>
    let s := replaceLogic E (modifyLogic E (cancelLogic E (heartbeatLogic E s)))
    let v := E.visit s.activeOrders.keys s.env
    Along (executionStep E) (fun st k => ¬ Fills E st k) (s.inEnv v.2, []) v.1.val
  | _ => True

/-- An order that is blocked reports no shares. -/
theorem reportedShares_of_blocked {s : OuchSession W} {k : Key} {o : OuchOrder}
    (h : Blocked E o s.env) :
    (constructOrderExecuted E s k o (-1)).reportedShares = s.reportedShares := by
  rcases constructOrderExecuted_drawn E s k o with ⟨-, w, hs⟩ | ⟨hopen, -⟩
  · rw [hs]
    rfl
  · exact absurd h hopen

/-- A visit that does not fill reports no shares. -/
theorem reportedShares_executionStep {st : Pass W} {k : Key} (h : ¬ Fills E st k) :
    (executionStep E st k).1.reportedShares = st.1.reportedShares := by
  have hcancel : ∀ (s : OuchSession W) (q : UInt32) (r : CancelReason) (t : Token),
      (constructOrderCanceled E s q r t).reportedShares = s.reportedShares :=
    fun s q r t => reportedShares_of_emits (K := [.orderCanceled])
      (emits_emit (s := s) rfl List.mem_cons_self) (by decide)
  unfold executionStep
  rcases hlook : st.1.activeOrders.lookup k with _ | o
  · rfl
  dsimp only
  rcases hgate : (E.gate .execution st.1.env).1 with _ | _
  · rfl
  simp only [Bool.not_true, Bool.false_eq_true, if_false]
  rcases hexpired : (o.expired E (E.gate .execution st.1.env).2).1 with _ | _
  · rw [if_neg Bool.false_ne_true]
    split
    · split
      · exact hcancel _ _ _ _
      · rfl
    rename_i htime
    split
    · rename_i hactive
      refine reportedShares_of_blocked E ?_
      by_contra hopen
      exact h ⟨o, hlook, hgate, hexpired, htime, hactive, hopen⟩
    · rfl
  · rw [if_pos rfl]
    exact hcancel _ _ _ _

/-- OUCH reports no executed shares in an event that fills nothing. -/
theorem reportedShares_step {s : OuchSession W} {e : Event} (h : FillsNothing E s e) :
    (step E s e).reportedShares = s.reportedShares := by
  by_cases he : e = .marketLogic
  · subst he
    have hpasses : ∀ s, (replaceLogic E (modifyLogic E (cancelLogic E
        (heartbeatLogic E s)))).reportedShares = s.reportedShares := by
      intro s
      rw [reportedShares_of_emits (emits_replaceLogic E _) (by decide),
        reportedShares_of_emits (emits_modifyLogic E _) (by decide),
        reportedShares_of_emits (emits_cancelLogic E _) (by decide),
        reportedShares_of_emits (emits_heartbeatLogic E s) (by decide)]
    rw [← hpasses s]
    exact run_of_along (f := executionStep E)
      (I := fun st : Pass W => st.1.reportedShares = _)
      (fun st k hst hfill => (reportedShares_executionStep E hfill).trans hst) rfl h
  · exact reportedShares_of_emits (emits_step E s he) (by decide)

end OuchSession

/-! ## Shares reported by BOE -/

namespace BoeSession

open Boe

/-- The shares of the `OrderExecution` messages. -/
def executions (ms : List OutMsg) : List UInt32 :=
  ms.filterMap fun m =>
    match m with
    | .orderExecution m => some m.lastShares
    | _ => none

/-- The number of shares reported executed. -/
def reportedShares (s : BoeSession W) : ℕ := ((executions s.pendingOutMessages).map UInt32.toNat).sum

/-- What sends no execution reports no shares. -/
theorem reportedShares_of_emits {K : List OutMsgType} {s s' : BoeSession W} (h : Emits K s s')
    (hK : .orderExecution ∉ K) : s'.reportedShares = s.reportedShares := by
  have hsame : executions s'.pendingOutMessages = executions s.pendingOutMessages := by
    apply h.filterMap
    intro m hm
    cases m
    case orderExecution => exact (hK hm).elim
    all_goals rfl
  unfold reportedShares
  rw [hsame]

/-- An execution of at most `n` shares reports at most `n` shares. -/
theorem reportedShares_constructOrderExecuted (E : Env W) (s : BoeSession W) (k : Key) {o : BoeOrder}
    (hpos : 0 < o.remainingQty) {n : ℤ} (hn : 0 ≤ n) :
    ((constructOrderExecuted E s k o n).reportedShares : ℤ) ≤ s.reportedShares + n := by
  unfold constructOrderExecuted
  by_cases hzero : n = 0
  · rw [if_pos hzero]
    omega
  rw [if_neg hzero]
  have hneg : ¬ n < 0 := by omega
  simp only [if_neg hneg]
  have hfill : ((UInt32.ofInt (min n o.remainingQty)).toNat : ℤ) ≤ n :=
    (toNat_ofInt_le (le_min hn hpos.le)).trans (min_le_left _ _)
  unfold reportedShares
  rw [emit_out]
  unfold executions
  rw [List.filterMap_append, List.map_append, List.sum_append, Nat.cast_add]
  exact Int.add_le_add_left hfill _

end BoeSession

/-! ## The quantity armed -/

variable (d : Double D) (E : Env W)

/-- No gate changes the quantity. -/
theorem keeps_exeQty :
    (managed d E).Keeps (fun x : BehaviorManager D × W => x.1.exeQty) (fun _ => True) where
  gate g _ x := by
    show (gate d E g x).2.1.exeQty = _
    unfold gate
    split
    · rfl
    · rfl
    split
    · rfl
    · rfl
  time _ := rfl
  clock _ := rfl
  now _ := rfl
  rand _ := rfl
  raw _ := rfl
  rawOuchOrder _ := rfl
  rawBoeOrder _ := rfl
  visit _ _ := rfl

/-- A quantity that is armed is handed out as a whole. -/
theorem executionQty_armed {x : BehaviorManager D × W} (h : 0 ≤ x.1.exeQty) :
    ((managed d E).executionQty x).1 = x.1.exeQty ∧
      ((managed d E).executionQty x).2.1.exeQty = 0 := by
  have hne : x.1.exeQty ≠ -1 := by omega
  show x.1.executionQty.1 = _ ∧ x.1.executionQty.2.exeQty = 0
  unfold executionQty
  rw [if_neg hne]
  exact ⟨rfl, rfl⟩

namespace BoeSession

/-- What has been reported and what is still armed are at most `B` together. -/
def Within (B : ℤ) (s : BoeSession (BehaviorManager D × W)) : Prop :=
  0 ≤ s.env.1.exeQty ∧ s.reportedShares + s.env.1.exeQty ≤ B

/-- A function that reports no execution and keeps the quantity. -/
theorem Within.of_eq {B : ℤ} {s s' : BoeSession (BehaviorManager D × W)} (h : Within B s)
    (hshares : s'.reportedShares = s.reportedShares) (hqty : s'.env.1.exeQty = s.env.1.exeQty) :
    Within B s' := by
  unfold Within
  rw [hshares, hqty]
  exact h

/-- An execution of at most what was armed, when nothing is armed any more. -/
theorem within_constructOrderExecuted {B n : ℤ} {s : BoeSession (BehaviorManager D × W)}
    (hleft : s.env.1.exeQty = 0) (hB : s.reportedShares + n ≤ B) (hn : 0 ≤ n) (k : Key)
    {o : BoeOrder} (hpos : 0 < o.remainingQty) :
    Within B (constructOrderExecuted (managed d E) s k o n) := by
  have henv := (keeps_constructOrderExecuted (keeps_exeQty d E) s k o n).trans hleft
  have hshares := reportedShares_constructOrderExecuted (managed d E) s k hpos hn
  refine ⟨henv.symm.le, ?_⟩
  rw [henv]
  omega

/-- A visit reports no more than it takes from the armed quantity. -/
theorem within_executionStep {B : ℤ} {st : Pass (BehaviorManager D × W)} (h : Within B st.1)
    (k : Key) : Within B (executionStep (managed d E) st k).1 := by
  have hgate : ((managed d E).gate .execution st.1.env).2.1.exeQty = st.1.env.1.exeQty :=
    (keeps_exeQty d E).gate .execution trivial st.1.env
  unfold executionStep
  rcases hlook : st.1.activeOrders.lookup k with _ | o
  · exact h
  dsimp only
  split
  · exact h.of_eq rfl hgate
  split
  · rename_i hactive
    have hpos : 0 < o.remainingQty := (BoeOrder.stillActive_iff.mp hactive).1
    obtain ⟨hq, hleft⟩ := executionQty_armed d E (hgate ▸ h.1)
    rw [hgate] at hq
    refine within_constructOrderExecuted d E hleft ?_ (hq ▸ h.1) k hpos
    rw [hq]
    exact h.2
  · have hfinish := keeps_finish (f := fun x => x.1.exeQty) (keeps_exeQty d E).boeOrder
      (st.1.inEnv ((managed d E).gate .execution st.1.env).2) k o
    exact h.of_eq rfl (hfinish.trans hgate)

/-- An execution pass reports no more than it takes from the armed quantity. -/
theorem within_executionLogic {B : ℤ} {s : BoeSession (BehaviorManager D × W)} (h : Within B s) :
    Within B (executionLogic (managed d E) s) :=
  run_invariant (f := executionStep (managed d E))
    (I := fun st : Pass (BehaviorManager D × W) => Within B st.1)
    (fun _ k hst => within_executionStep d E hst k)
    (s := (s.inEnv ((managed d E).visit s.activeOrders.keys s.env).2, [])) (h.of_eq rfl rfl)
    ((managed d E).visit s.activeOrders.keys s.env).1.val

/-- No event of BOE exceeds the balance. -/
theorem within_step {B : ℤ} {s : BoeSession (BehaviorManager D × W)} (h : Within B s) (e : Event) :
    Within B (step (managed d E) s e) := by
  have hkeeps := keeps_exeQty d E
  cases e with
  | disconnect => exact h
  | cancelAll =>
    exact h.of_eq (reportedShares_of_emits (emits_cancelAll _ s) (by decide))
      (keeps_cancelAll hkeeps s)
  | marketLogic =>
    have hbeat : Within B (heartbeatLogic (managed d E) s) :=
      h.of_eq (reportedShares_of_emits (emits_heartbeatLogic _ s) (by decide))
        (keeps_heartbeatLogic hkeeps s)
    have hcancel : Within B (cancelLogic (managed d E) (heartbeatLogic (managed d E) s)) :=
      hbeat.of_eq (reportedShares_of_emits (emits_cancelLogic _ _) (by decide))
        (keeps_cancelLogic hkeeps trivial _)
    have hmodify : Within B (modifyLogic (managed d E) (cancelLogic (managed d E)
        (heartbeatLogic (managed d E) s))) :=
      hcancel.of_eq (reportedShares_of_emits (emits_modifyLogic _ _) (by decide))
        (keeps_modifyLogic hkeeps _)
    exact within_executionLogic d E hmodify
  | packet p =>
    rcases step_packet (managed d E) s p with ⟨-, hstep⟩ | ⟨r, -, hstep⟩ <;> rw [hstep]
    · exact h
    refine h.of_eq (reportedShares_of_emits (emits_handle _ s r) ?_) ?_
    · cases r <;> simp [answerTypes]
    cases r with
    | login req => exact keeps_handleLoginRequest hkeeps trivial s req
    | heartbeat => rfl
    | enter no =>
      refine (keeps_enterOrder hkeeps s no).trans ?_
      split
      · rfl
      · exact hkeeps.gate .newOrder trivial s.env
    | cancel co => exact keeps_cancelOrder hkeeps trivial s co
    | modify mo => exact keeps_modifyOrder hkeeps trivial s mo

end BoeSession

/-! ## Both sessions -/

namespace OuchSession

/-- No event of OUCH changes the quantity. -/
theorem exeQty_step (s : OuchSession (BehaviorManager D × W)) (e : Event) :
    (step (managed d E) s e).env.1.exeQty = s.env.1.exeQty := by
  have hkeeps := keeps_exeQty d E
  cases e with
  | setLogger => rfl
  | disconnect => rfl
  | cancelAll => exact keeps_cancelAll hkeeps s
  | marketLogic =>
    refine (keeps_executionLogic hkeeps trivial _).trans ?_
    refine (keeps_replaceLogic hkeeps _).trans ((keeps_modifyLogic hkeeps _).trans ?_)
    exact (keeps_cancelLogic hkeeps trivial _).trans (keeps_heartbeatLogic hkeeps s)
  | packet p =>
    rcases step_packet (managed d E) s p with ⟨-, hstep⟩ | ⟨r, -, -, hstep⟩ <;> rw [hstep]
    cases r with
    | login => exact keeps_handleLoginRequest hkeeps trivial s
    | logout => rfl
    | heartbeat => rfl
    | enter eo =>
      refine (keeps_enterOrder hkeeps s eo).trans ?_
      split
      · exact hkeeps.gate .newOrder trivial s.env
      · rfl
    | replace ro => exact keeps_replaceOrder hkeeps trivial s ro
    | cancel co => exact keeps_cancelOrder hkeeps trivial s co
    | modify mo => exact keeps_modifyOrder hkeeps trivial s mo

end OuchSession

namespace Simulator

/-- The shares that both sessions have reported executed. -/
def executed (x : Simulator D W) : ℕ := x.ouch.reportedShares + x.boe.reportedShares

/-- A tick of OUCH fills no order. -/
def OuchFillsNothing (x : Simulator D W) : Event → Prop
  | .ouch e => OuchSession.FillsNothing (managed d E) (x.ouch.inEnv x.env) e
  | _ => True

/-- What has been reported and what is still armed are at most `B` together. -/
def Within (B : ℤ) (x : Simulator D W) : Prop :=
  0 ≤ x.env.1.exeQty ∧ x.executed + x.env.1.exeQty ≤ B

/-- An event of a run without commands reports no more than it takes from the armed quantity. -/
theorem within_step {B : ℤ} {x : Simulator D W} (h : Within B x) {e : Event}
    (he : e.isCommand = false) (hfill : OuchFillsNothing d E x e) : Within B (step d E x e) := by
  obtain ⟨h0, hB⟩ := h
  unfold executed at hB
  push_cast at hB
  cases e with
  | ouch e =>
    have hqty : (step d E x (.ouch e)).env.1.exeQty = x.env.1.exeQty :=
      OuchSession.exeQty_step d E (x.ouch.inEnv x.env) e
    have hshares : (step d E x (.ouch e)).ouch.reportedShares = x.ouch.reportedShares :=
      OuchSession.reportedShares_step (managed d E) hfill
    have hboe : (step d E x (.ouch e)).boe = x.boe := rfl
    unfold Within executed
    rw [hqty, hshares, hboe]
    push_cast
    exact ⟨h0, hB⟩
  | boe e =>
    have hwithin : BoeSession.Within (B - x.ouch.reportedShares) (x.boe.inEnv x.env) := by
      refine ⟨h0, ?_⟩
      show (x.boe.reportedShares : ℤ) + x.env.1.exeQty ≤ _
      omega
    obtain ⟨h0', hB'⟩ := BoeSession.within_step d E hwithin e
    refine ⟨h0', ?_⟩
    show ((x.ouch.reportedShares + (BoeSession.step (managed d E) (x.boe.inEnv x.env)
      e).reportedShares : ℕ) : ℤ) + (BoeSession.step (managed d E) (x.boe.inEnv x.env)
      e).env.1.exeQty ≤ B
    push_cast
    omega
  | command c => exact nomatch he

/-- **`bm execute n` caps what is executed.** Behind it no more than `n` shares are reported executed
in all, as long as no tick of OUCH fills an order. -/
theorem executed_le (x : Simulator D W) {text : String} {n : ℤ} (htext : stoi text = some n)
    (hn : 0 < n) {es : List Event} (hes : ∀ e ∈ es, e.isCommand = false) :
    let y := step d E x (.command (.execute [text]))
    Along (step d E) (OuchFillsNothing d E) y es →
      Throughout (step d E) (fun z => (z.executed : ℤ) - y.executed ≤ n) y es := by
  intro y hfill
  have hqty : y.env.1.exeQty = n := by
    have hpos : ¬ n ≤ 0 := by omega
    show (x.env.1.setExecutionQty [text]).1.exeQty = n
    dsimp only [setExecutionQty]
    rw [htext]
    dsimp only
    rw [if_neg hpos]
  have hstart : Within (y.executed + n) y := ⟨hqty ▸ hn.le, hqty ▸ le_refl _⟩
  have hwithin := throughout_of_along (f := step d E) (I := Within (y.executed + n))
    (C := fun z e => e.isCommand = false ∧ OuchFillsNothing d E z e)
    (fun z e hz he => within_step d E hz he.1 he.2) hstart ((along_of_forall hes).and hfill)
  refine hwithin.imp fun z hz => ?_
  have h0 := hz.1
  have hB := hz.2
  omega

/-- A BOE order of 200 shares behind `bm execute 50`: two ticks report 50 shares. -/
theorem executed_boe :
    let x := init oneDouble quietEnv ()
    let y := step oneDouble quietEnv x (.command (.execute ["50"]))
    Throughout (step oneDouble quietEnv) (fun z => (z.executed : ℤ) - y.executed ≤ 50) y
      [.boe (BoeSession.newPacket 'a' [200, 0, 0, 0]), .boe .marketLogic, .boe .marketLogic] :=
  executed_le oneDouble quietEnv _ (show stoi "50" = some 50 by decide +kernel) (by decide)
    (by decide) ⟨trivial, trivial, trivial, trivial⟩

/-- OUCH fills 100 shares behind `bm execute 50`. -/
theorem not_executed_le :
    ¬ ∀ (D W : Type) (d : Double D) (E : Env W) (x : Simulator D W) (text : String) (n : ℤ),
      stoi text = some n → 0 < n → ∀ es : List Event, (∀ e ∈ es, e.isCommand = false) →
        let y := step d E x (.command (.execute [text]))
        Throughout (step d E) (fun z => (z.executed : ℤ) - y.executed ≤ n) y es := by
  intro h
  have hshares := (h Unit Unit oneDouble quietEnv ouchLoggedIn "50" 50 (by decide +kernel) (by decide)
    [.ouch (OuchSession.enterPacket 'a' 100), .ouch .marketLogic] (by decide)).last
  revert hshares
  decide +kernel

end Simulator

end Evtsim
