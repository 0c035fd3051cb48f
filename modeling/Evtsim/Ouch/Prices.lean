import Evtsim.Ouch.Filling
import Evtsim.Ouch.Tick

/-!
# The prices of orders and executions

Both validators test a price from above only, and a price is signed. From there it goes into the order, or
through the unsigned `price` of a pending replacement into the order that is replaced, and from the order
into every `Executed`. `Stems` follows which active orders stem from an `EnterOrder`; `pricesInRange_iff`
says that their prices and those of their executions stay in range exactly in the runs in which no such
order is entered or replaced with a negative price.
-/

namespace Evtsim

open Wire Ouch Log Machine Session

namespace OuchSession

variable {W : Type} (E : Env W)

/-! ## Prices -/

/-- From 0 to 1999999900, or the market price 2147483647. -/
def InRange (price : Int32) : Prop := 0 ≤ price ∧ price ≤ 1999999900 ∨ price = 2147483647

instance (price : Int32) : Decidable (InRange price) := inferInstanceAs (Decidable (_ ∨ _))

/-- The validators leave the lower end of the range open. -/
theorem inRange_iff {price : Int32} (h : priceOk price = true) : InRange price ↔ 0 ≤ price := by
  unfold priceOk at h
  simp only [Bool.not_eq_true', Bool.and_eq_false_iff, decide_eq_false_iff_not, bne_eq_false_iff_eq] at h
  constructor
  · rintro (⟨hle, -⟩ | rfl)
    · exact hle
    · decide
  · intro hle
    exact h.imp (fun hlt => ⟨hle, Int32.not_lt.mp hlt⟩) id

/-- The price of a request, if it has one, is let through. -/
def PriceOk : Request → Prop
  | .enter eo => priceOk eo.price = true
  | .replace ro => priceOk ro.price = true
  | _ => True

/-- A valid `EnterOrder` has a valid price. -/
theorem priceOk_of_validateEnterOrder {p : Mem} (h : validateEnterOrder p = true) :
    priceOk (EnterOrder.ofMem p).fromNetwork.price = true := by
  unfold validateEnterOrder at h
  simp only [Bool.and_eq_true] at h
  exact h.1.1.1.1.1.2

/-- A valid `ReplaceOrder` has a valid price. -/
theorem priceOk_of_validateReplaceOrder {p : Mem} (h : validateReplaceOrder p = true) :
    priceOk (ReplaceOrder.ofMem p).fromNetwork.price = true := by
  unfold validateReplaceOrder at h
  simp only [Bool.and_eq_true] at h
  exact h.2

/-- A request has passed its validator. -/
theorem priceOk_request {p : Mem} : ∀ r ∈ request p, PriceOk r := by
  have hvalid : ∀ {b : Bool} {r : Request}, (b = true → PriceOk r) →
      ∀ r' ∈ if b = true then some r else none, PriceOk r' := by
    intro b r h r' hr'
    obtain ⟨hb, heq⟩ := Option.mem_ite_none_right.mp hr'
    exact Option.some.inj heq ▸ h hb
  have hnone : ∀ r ∈ (none : Option Request), PriceOk r := fun r hr => by cases hr
  have hite : ∀ {c : Prop} [Decidable c] {x y : Option Request}, (∀ r ∈ x, PriceOk r) →
      (∀ r ∈ y, PriceOk r) → ∀ r ∈ if c then x else y, PriceOk r := fun hx hy =>
    iteInduction (motive := fun o => ∀ r ∈ o, PriceOk r) (fun _ => hx) fun _ => hy
  unfold request
  refine hite (hvalid fun _ => trivial) (hite (hvalid fun _ => trivial) (hite (hvalid fun _ => trivial)
    (hite ?_ hnone)))
  refine hite (hvalid priceOk_of_validateEnterOrder) (hite (hvalid priceOk_of_validateReplaceOrder) ?_)
  exact hite (hvalid fun _ => trivial) (hite (hvalid fun _ => trivial) hnone)

/-! ## Where orders stem from -/

instance (s : OuchSession W) (eo : EnterOrder) : Decidable (Accepts E s eo) :=
  inferInstanceAs (Decidable (_ ∧ _))

/-- The order that a packet enters into the book. -/
def entering (s : OuchSession W) (p : Mem) : Option EnterOrder :=
  match request p with
  | some (.enter eo) => if s.l = true ∧ Accepts E s eo then some eo else none
  | _ => none

/-- A session with the keys of the orders that stem from an `EnterOrder`. -/
structure Stems (W : Type) where
  session : OuchSession W
  stems : Key → Bool

namespace Stems

def init (w : W) : Stems W := { session := OuchSession.init E w, stems := fun _ => false }

/-- A pass of `replace_logic` with these keys. -/
abbrev Noted (W : Type) := Pass W × (Key → Bool)

/-- The order under a key stems from an `EnterOrder`. One that the subscript has to construct does not. -/
def stemsAt (b : Noted W) (k : Key) : Bool := b.2 k && k ∈ b.1.1.activeOrders

/-- A replacement that is applied brings its order to the new token. -/
def replaceStep (b : Noted W) (ro : OuchReplaceOrderReq) : Noted W :=
  (OuchSession.replaceStep E b.1 ro,
    if replaceCancels ro (entry E.ouchOrder b.1.1 ro.existingToken.str).executedQty then stemsAt b
    else fun k =>
      if k = ro.existingToken.str then false
      else if k = ro.newToken.str then stemsAt b ro.existingToken.str
      else stemsAt b k)

/-- What `replace_logic` of a tick starts from. -/
def replaceStart (a : Stems W) : Noted W := ((beforeReplace E a.session, []), a.stems)

/-- The replacements of a tick. -/
def replaceLogic (a : Stems W) : Noted W :=
  Machine.run (replaceStep E) (replaceStart E a) (beforeReplace E a.session).pendingReplace

/-- One event. -/
def step (a : Stems W) (e : Event) : Stems W :=
  { session := OuchSession.step E a.session e
    stems :=
      match e with
      | .packet p =>
        match entering E a.session p with
        | some eo => Function.update a.stems eo.token.str true
        | none => a.stems
      | .marketLogic => (replaceLogic E a).2
      | _ => a.stems }

/-- The notes do not touch the session. -/
theorem run_session (w : W) (es : List Event) :
    (Machine.run (step E) (init E w) es).session = OuchSession.run E w es :=
  run_view (g := Stems.session) (fun _ _ => rfl) (init E w) es

end Stems

/-! ## What a run is to keep -/

/-- An order that stems from an `EnterOrder` has a price in range. -/
def Priced (stems : Key → Bool) (k : Key) (o : OuchOrder) : Prop := stems k = true → InRange o.price

/-- Every active order has. -/
def AllPriced (stems : Key → Bool) (A : KeyedMap Key OuchOrder) : Prop :=
  ∀ k o, A.lookup k = some o → Priced stems k o

/-- The prices are in range behind the event and, in a tick, behind every replacement; and the price of
every execution is, if its order stems from an `EnterOrder`. -/
def PricesInRange (a : Stems W) : Event → Prop
  | .marketLogic =>
    Along (Stems.replaceStep E) (fun b ro =>
        AllPriced (Stems.replaceStep E b ro).2 (Stems.replaceStep E b ro).1.1.activeOrders)
      (Stems.replaceStart E a) (beforeReplace E a.session).pendingReplace ∧
    (∀ x, .executed x ∈ sentByTick E a.session →
      ∀ k o, (beforeExecution E a.session).activeOrders.lookup k = some o → o.token = x.token →
        (Stems.replaceLogic E a).2 k = true → InRange x.executionPrice) ∧
    AllPriced (Stems.step E a .marketLogic).stems (Stems.step E a .marketLogic).session.activeOrders
  | e =>
    (∀ x, .executed x ∉ added a.session.pendingOutMessages
      (Stems.step E a e).session.pendingOutMessages) ∧
    AllPriced (Stems.step E a e).stems (Stems.step E a e).session.activeOrders

/-- A replacement that is applied to an order that stems from an `EnterOrder`, and does not lose it, has no
negative price. -/
def ReplacesNonNegative (b : Stems.Noted W) (ro : OuchReplaceOrderReq) : Prop :=
  replaceCancels ro (entry E.ouchOrder b.1.1 ro.existingToken.str).executedQty = false →
    Stems.stemsAt b ro.existingToken.str = true → ro.newToken.str ≠ ro.existingToken.str →
      0 ≤ ro.price.toInt32

/-- No order is entered, and none that stems from an `EnterOrder` is replaced, with a negative price. -/
def NonNegative (a : Stems W) : Event → Prop
  | .packet p => ∀ eo ∈ entering E a.session p, 0 ≤ eo.price
  | .marketLogic =>
    Along (Stems.replaceStep E) (ReplacesNonNegative E) (Stems.replaceStart E a)
      (beforeReplace E a.session).pendingReplace
  | _ => True

/-! ## Packets -/

/-- A packet enters an order with a price that the validator lets through, or changes no active order. -/
theorem packet_cases (s : OuchSession W) (p : Mem) :
    (entering E s p = none ∧ (OuchSession.step E s (.packet p)).activeOrders = s.activeOrders) ∨
    ∃ eo d, entering E s p = some eo ∧ priceOk eo.price = true ∧
      (OuchSession.step E s (.packet p)).activeOrders =
        s.activeOrders.insert eo.token.str (OuchOrder.parseOrder d eo) := by
  unfold entering
  rcases step_packet E s p with ⟨hl | hnone, hs⟩ | ⟨r, hl, hr, hs⟩
  · rw [hs, hl]
    refine .inl ⟨?_, rfl⟩
    split
    · exact if_neg fun h => Bool.false_ne_true h.1
    · rfl
  · rw [hs, hnone]
    exact .inl ⟨rfl, rfl⟩
  rw [hs, hr, hl]
  rcases handle_cases E s r with ⟨hidle, hnot⟩ | ⟨eo, w, d, m, rfl, hacc, -, -, hs⟩ |
    ⟨mo, w, rfl, -, -, hs⟩ | ⟨ro, w, rfl, -, hs⟩ | ⟨co, w, rfl, -, -, hs⟩
  · refine .inl ⟨?_, hidle.activeOrders⟩
    cases r with
    | enter eo => exact if_neg fun h => hnot eo rfl h.2
    | _ => rfl
  · right
    rw [hs]
    exact ⟨eo, d, if_pos ⟨rfl, hacc⟩, priceOk_request _ hr, rfl⟩
  all_goals
    rw [hs]
    exact .inl ⟨rfl, rfl⟩

/-- The pending replacements have prices that the validator lets through. -/
def QueueOk (s : OuchSession W) : Prop := ∀ ro ∈ s.pendingReplace, priceOk ro.price.toInt32 = true

/-- Every event queues replacements at valid prices only. -/
theorem queueOk_step {s : OuchSession W} (h : QueueOk s) (e : Event) :
    QueueOk (OuchSession.step E s e) := by
  cases e with
  | setLogger => exact h
  | packet p =>
    rcases step_packet E s p with ⟨-, hs⟩ | ⟨r, -, hr, hs⟩
    · rw [hs]
      exact h
    rw [hs]
    rcases handle_cases E s r with ⟨hidle, -⟩ | ⟨eo, w, d, m, -, -, -, -, hs⟩ | ⟨mo, w, -, -, -, hs⟩ |
      ⟨ro, w, rfl, -, hs⟩ | ⟨co, w, -, -, -, hs⟩
    · unfold QueueOk
      rw [hidle.pendingReplace]
      exact h
    · rw [hs]
      exact h
    · rw [hs]
      exact h
    · -- the unsigned price of the request goes back to the signed one
      rw [hs]
      refine List.forall_mem_append.mpr ⟨h, List.forall_mem_singleton.mpr ?_⟩
      show priceOk ro.price.toUInt32.toInt32 = true
      rw [Int32.toInt32_toUInt32]
      exact priceOk_request _ hr
    · rw [hs]
      exact h
  | marketLogic =>
    have hnone : (OuchSession.step E s .marketLogic).pendingReplace = [] := (marketLogic_queues E s).2.2
    unfold QueueOk
    rw [hnone]
    exact List.forall_mem_nil _
  | cancelAll =>
    have hsame : (OuchSession.step E s .cancelAll).pendingReplace = s.pendingReplace :=
      (cancelAll_frame E s).1.pendingReplace
    unfold QueueOk
    rw [hsame]
    exact h
  | disconnect => exact h

/-- A new entry keeps the prices in range exactly if its own is. -/
theorem allPriced_insert {stems : Key → Bool} {A : KeyedMap Key OuchOrder} (h : AllPriced stems A)
    (k : Key) (o : OuchOrder) :
    AllPriced (Function.update stems k true) (A.insert k o) ↔ InRange o.price := by
  constructor
  · intro hall
    exact hall k o (AList.lookup_insert A) (Function.update_self ..)
  · intro ho k' x hx hstem
    rw [KeyedMap.lookup_insert] at hx
    split at hx
    · cases hx
      exact ho
    · rename_i hk
      rw [Function.update_of_ne hk] at hstem
      exact h k' x hx hstem

/-- A packet keeps the prices in range unless it enters an order with a negative one. -/
theorem allPriced_packet {a : Stems W} (h : AllPriced a.stems a.session.activeOrders) (p : Mem) :
    AllPriced (Stems.step E a (.packet p)).stems (Stems.step E a (.packet p)).session.activeOrders ↔
      NonNegative E a (.packet p) := by
  unfold NonNegative Stems.step
  dsimp only
  rcases packet_cases E a.session p with ⟨hnone, hact⟩ | ⟨eo, d, hsome, hok, hact⟩
  · rw [hnone, hact]
    exact iff_of_true h fun eo heo => by cases heo
  · rw [hsome, hact]
    simp only [Option.mem_def, Option.some.injEq, forall_eq']
    exact (allPriced_insert h _ _).trans (inRange_iff hok)

/-! ## Ticks -/

/-- All prices are in range if each is that of its entry. -/
theorem each_priced {stems : Key → Bool} {A : KeyedMap Key OuchOrder} :
    Each (Priced stems) A [] ↔ AllPriced stems A :=
  ⟨fun h _ _ ho => h.get ho, fun h k o ho => .inl (h k o ho)⟩

/-- Only `replace_logic` changes a price. -/
theorem keptByPasses_priced (stems : Key → Bool) : KeptByPasses E (Priced stems) where
  cut _ h := h
  modified _ h := h
  timed w h := by
    obtain ⟨r, hr⟩ := OuchOrder.expired_order E _ w
    rw [hr]
    exact h
  marked h := h
  filled _ _ h := h

/-- A replacement keeps the prices in range unless it gives an order that stems from an `EnterOrder` a
negative one. -/
theorem allPriced_replaceStep {b : Stems.Noted W} (h : AllPriced b.2 b.1.1.activeOrders)
    {ro : OuchReplaceOrderReq} (hok : priceOk ro.price.toInt32 = true) :
    AllPriced (Stems.replaceStep E b ro).2 (Stems.replaceStep E b ro).1.1.activeOrders ↔
      ReplacesNonNegative E b ro := by
  -- what is under a key that stood before
  have hold : ∀ k o, b.1.1.activeOrders.lookup k = some o → Stems.stemsAt b k = true →
      InRange o.price := fun k o ho hstem => h k o ho (Bool.and_eq_true_iff.mp hstem).1
  unfold Stems.replaceStep ReplacesNonNegative
  dsimp only
  rcases replaceStep_cases E b.1 ro with ⟨hcancel, w, m, -, -, hs⟩ | ⟨happly, w, m, A, -, -, hA, hs⟩
  · -- a constructed order does not stem from anything
    rw [hs, hcancel, if_pos rfl]
    refine iff_of_true ?_ fun h => by cases h
    intro k o hlook hstem
    have hmem : k ∈ b.1.1.activeOrders := of_decide_eq_true (Bool.and_eq_true_iff.mp hstem).2
    obtain ⟨x, hx⟩ := KeyedMap.mem_iff_lookup.mp hmem
    simp only [emit_activeOrders, withActive_activeOrders] at hlook
    rw [KeyedMap.lookup_touch _ _ (.inl hmem)] at hlook
    exact hold k o hlook hstem
  · rw [hs, happly]
    simp only [Bool.false_eq_true, if_false, emit_activeOrders, withActive_activeOrders, forall_const]
    constructor
    · intro hall hstem hne
      have hlook : A.lookup ro.newToken.str =
          some (replaced (entry E.ouchOrder b.1.1 ro.existingToken.str) ro) := by
        rw [hA, if_neg hne, if_pos rfl]
      have hrange : InRange (replaced (entry E.ouchOrder b.1.1 ro.existingToken.str) ro).price := by
        refine hall _ _ hlook ?_
        dsimp only
        rw [if_neg hne, if_pos rfl]
        exact hstem
      exact (inRange_iff hok).mp hrange
    · intro hprice k o hlook hstem
      dsimp only at hstem
      rw [hA] at hlook
      by_cases hk : k = ro.existingToken.str
      · rw [if_pos hk] at hlook
        cases hlook
      rw [if_neg hk] at hlook hstem
      by_cases hnew : k = ro.newToken.str
      · rw [if_pos hnew] at hlook hstem
        cases hlook
        exact (inRange_iff hok).mpr (hprice hstem fun heq => hk (hnew.trans heq))
      · rw [if_neg hnew] at hlook hstem
        exact hold k o hlook hstem

/-- Along the replacements of a tick the prices are in range exactly if none is negative, and then they are
before the execution pass. -/
theorem allPriced_replaceLogic {a : Stems W} (h : AllPriced a.stems a.session.activeOrders)
    (hqueue : QueueOk a.session) :
    (Along (Stems.replaceStep E) (fun b ro =>
        AllPriced (Stems.replaceStep E b ro).2 (Stems.replaceStep E b ro).1.1.activeOrders)
      (Stems.replaceStart E a) (beforeReplace E a.session).pendingReplace ↔
        NonNegative E a .marketLogic) ∧
    (NonNegative E a .marketLogic →
      AllPriced (Stems.replaceLogic E a).2 (beforeExecution E a.session).activeOrders) := by
  have hstart : AllPriced a.stems (beforeReplace E a.session).activeOrders :=
    each_priced.mp ((keptByPasses_priced E a.stems).beforeReplace (each_priced.mpr h))
  have hsame : (beforeReplace E a.session).pendingReplace = a.session.pendingReplace := by
    have hmodify := (modifyLogic_frame E (cancelLogic E (heartbeatLogic E a.session))).1.pendingReplace
    have hcancel := (cancelLogic_frame E (heartbeatLogic E a.session)).2.2.1
    exact hmodify.trans (hcancel.trans (idle_heartbeatLogic E a.session).pendingReplace)
  have hok : Along (Stems.replaceStep E) (fun _ ro => priceOk ro.price.toInt32 = true)
      (Stems.replaceStart E a) (beforeReplace E a.session).pendingReplace := by
    rw [hsame]
    exact along_of_forall hqueue
  constructor
  · exact along_congr (I := fun b : Stems.Noted W => AllPriced b.2 b.1.1.activeOrders)
      (fun b ro hb hro hC => (allPriced_replaceStep E hb hro).mpr hC)
      (fun b ro hb hro => allPriced_replaceStep E hb hro) hstart hok
  · intro hC
    have hend := run_of_along (I := fun b : Stems.Noted W => AllPriced b.2 b.1.1.activeOrders)
      (fun b ro hb hro => (allPriced_replaceStep E hb hro.1).mpr hro.2) hstart (hok.and hC)
    have hpass : (Stems.replaceLogic E a).1 = Machine.run (OuchSession.replaceStep E)
        (beforeReplace E a.session, []) (beforeReplace E a.session).pendingReplace :=
      run_view (g := Prod.fst) (fun _ _ => rfl) _ _
    have hbook := congrArg (fun st => (finishPass st).activeOrders) hpass
    have hfinish := Each.finishPass (W := W) (each_priced.mpr hend) (List.forall_mem_nil _)
    unfold Stems.replaceLogic at hbook ⊢
    rw [hbook] at hfinish
    exact each_priced.mp hfinish

/-- An execution is at the price of the order. -/
theorem executionPrice_of_visit {st : Pass W} {k : Key} {x : Executed}
    (hx : .executed x ∈ added st.1.pendingOutMessages (executionStep E st k).1.pendingOutMessages) :
    ∃ o, st.1.activeOrders.lookup k = some o ∧ x.token = o.token ∧ x.executionPrice = o.price := by
  obtain ⟨o, ho, hgate, ⟨c, heq, -⟩ | ⟨c, heq, -⟩ | ⟨x', heq, htoken, hfirst, hioc, hsecond⟩⟩ :=
    mem_added_executionStep E hx
  · cases heq
  · cases heq
  cases heq
  refine ⟨o, ho, htoken, ?_⟩
  have hprice : (secondReading E st o).2.1.price = o.price := by
    obtain ⟨r, state, hread⟩ := retimed_secondReading E st o
    rw [hread]
  rw [executionStep_of_active E st ho hgate hfirst hioc hsecond] at hx
  rcases constructOrderExecuted_drawn E ((st.1.withActive (st.1.activeOrders.insert k
      (secondReading E st o).2.1)).inEnv (secondReading E st o).2.2) k (secondReading E st o).2.1 with
    ⟨-, w, hs⟩ | ⟨-, w, m, -, -, hm, hs⟩
  · rw [hs, inEnv_out, inEnv_out, withActive_out, added_self] at hx
    exact absurd hx List.not_mem_nil
  · rw [hs, emit_out, withActive_out, inEnv_out, withActive_out, added_append, List.mem_singleton,
      OutMsg.executed.injEq] at hx
    rw [hx, hm, hprice]

/-- With prices in range before the execution pass, every execution has one. -/
theorem executions_inRange {s : OuchSession W} {stems : Key → Bool}
    (hkeyed : Keyed (beforeExecution E s).activeOrders [])
    (h : AllPriced stems (beforeExecution E s).activeOrders) {x : Executed}
    (hx : .executed x ∈ sentByTick E s) {k : Key} {o : OuchOrder}
    (ho : (beforeExecution E s).activeOrders.lookup k = some o) (htoken : o.token = x.token)
    (hstem : stems k = true) : InRange x.executionPrice := by
  obtain ⟨pre, k', post, hsplit, hvisit⟩ := exists_visit_of_sent E hx fun hnot => hnot.1 rfl
  obtain ⟨o', ho', htoken', hprice⟩ := executionPrice_of_visit E hvisit
  rw [lookup_walk E hsplit] at ho'
  -- both orders are held under the token of the message
  have hk := (hkeyed k o ho).resolve_right List.not_mem_nil
  have hk' := (hkeyed k' o' ho').resolve_right List.not_mem_nil
  rw [htoken] at hk
  rw [← htoken', hk] at hk'
  subst hk'
  rw [hprice]
  exact h k o' ho' hstem

/-! ## Runs -/

/-- What holds between events. -/
structure PricedState (a : Stems W) : Prop where
  priced : AllPriced a.stems a.session.activeOrders
  queue : QueueOk a.session
  keyed : Keyed a.session.activeOrders []

/-- A new session has no order with a price. -/
theorem pricedState_init (w : W) : PricedState (Stems.init E w) where
  priced k o ho := by cases ho
  queue := List.forall_mem_nil _
  keyed := keyed_empty

/-- An event that ends with all prices in range keeps the invariant. -/
theorem PricedState.step {a : Stems W} (h : PricedState a) {e : Event}
    (hpriced : AllPriced (Stems.step E a e).stems (Stems.step E a e).session.activeOrders) :
    PricedState (Stems.step E a e) :=
  ⟨hpriced, queueOk_step E h.queue e, keyed_step E h.keyed e⟩

/-- One event keeps the prices in range exactly if nothing is entered or replaced with a negative price. -/
theorem PricedState.inRange_iff {a : Stems W} (h : PricedState a) (e : Event) :
    PricesInRange E a e ↔ NonNegative E a e := by
  cases e with
  | packet p =>
    exact (and_iff_right (executed_notMem_added E (by rintro ⟨⟩))).trans
      (allPriced_packet E h.priced p)
  | marketLogic =>
    obtain ⟨halong, hbefore⟩ := allPriced_replaceLogic E h.priced h.queue
    refine ⟨fun hall => halong.mp hall.1, fun hC => ⟨halong.mpr hC, ?_, ?_⟩⟩
    · intro x hx k o ho htoken hstem
      exact executions_inRange E (keyed_beforeExecution E h.keyed) (hbefore hC) hx ho htoken hstem
    · exact each_priced.mp ((keptByPasses_priced E _).executionLogic (each_priced.mpr (hbefore hC)))
  | setLogger => exact iff_of_true ⟨executed_notMem_added E (by rintro ⟨⟩), h.priced⟩ trivial
  | cancelAll =>
    refine iff_of_true ⟨executed_notMem_added E (by rintro ⟨⟩), ?_⟩ trivial
    intro k o ho
    cases ho
  | disconnect => exact iff_of_true ⟨executed_notMem_added E (by rintro ⟨⟩), h.priced⟩ trivial

/-- **Prices.** In a run the orders that stem from an `EnterOrder`, replaced or not, and their executions
have prices in range throughout exactly when none is entered or replaced with a negative price. -/
theorem pricesInRange_iff (w : W) (es : List Event) :
    Along (Stems.step E) (PricesInRange E) (Stems.init E w) es ↔
      Along (Stems.step E) (NonNegative E) (Stems.init E w) es := by
  refine along_congr (I := PricedState) (K := fun _ _ => True) (fun a e ha _ hC => ?_)
    (fun a e ha _ => ha.inRange_iff E e) (pricedState_init E w) (along_of_forall fun _ _ => trivial)
  have hall := (ha.inRange_iff E e).mpr hC
  cases e with
  | marketLogic => exact ha.step E hall.2.2
  | packet p => exact ha.step E hall.2
  | setLogger => exact ha.step E hall.2
  | cancelAll => exact ha.step E hall.2
  | disconnect => exact ha.step E hall.2

/-- Buy 200 shares until market close, at the price that four bytes give. -/
def enterAt (c : Char) (price : List UInt8) : Event :=
  bytesEvent ([0, 50, 85, 79] ++ tokenBytes c ++ [66, 0, 0, 0, 200] ++ List.replicate 8 65 ++
    price ++ [0, 1, 0x86, 0x9E] ++ List.replicate 4 65 ++ [89, 79, 78, 0, 0, 0, 0, 78, 78])

/-- An order is accepted at the price -1. -/
theorem not_pricesInRange :
    ¬ ∀ (W : Type) (E : Env W) (w : W) (es : List Event),
      Along (Stems.step E) (PricesInRange E) (Stems.init E w) es := by
  intro h
  have hrun := h Unit quietEnv () (loggedIn ++ [enterAt 'a' [255, 255, 255, 255]])
  have hentered := ((along_append.mp hrun).2.1 :).2
  generalize ha : Stems.step quietEnv (Machine.run (Stems.step quietEnv) (Stems.init quietEnv ()) loggedIn)
    (enterAt 'a' [255, 255, 255, 255]) = a at hentered
  have hbook : (a.session.activeOrders.lookup (tokenOf 'a').str).map OuchOrder.price = some (-1) := by
    rw [← ha]
    decide +kernel
  have hstem : a.stems (tokenOf 'a').str = true := by
    rw [← ha]
    decide +kernel
  obtain ⟨o, ho, hprice⟩ := Option.map_eq_some_iff.mp hbook
  have hrange := hentered _ o ho hstem
  rw [hprice] at hrange
  exact absurd hrange (by decide)

end OuchSession

end Evtsim
