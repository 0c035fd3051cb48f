import Evtsim.Simulator
import Evtsim.Ouch.Book

/-!
# Counted cancels in OUCH

`cancel_order` consults the cancel gate when a request arrives and `cancel_logic` consults it again at
the next tick, so a cancel that goes through takes two units of `bm set count cancel_order`. An audit
of a run keeps the requests that have arrived since the last tick and notes for each full cancel
whether it has been answered and whether its order has gone. `counted_cancels_iff` says when exactly
the first `n` of them are.
-/

namespace Evtsim

open BehaviorManager Machine Wire Ouch Session

namespace OuchSession

variable {D W : Type} (d : Double D) (E : Env W)

/-! ## The audit -/

/-- A `CancelOrder` that found its order active on arrival. -/
structure Arrival where
  req : OuchCancelOrderReq
  /-- It asks for the whole order, as the first since the last tick. -/
  candidate : Bool
  /-- The gate lets it through on arrival. -/
  queued : Bool

/-- What a packet adds to the requests since the last tick. -/
def arrival (s : OuchSession (BehaviorManager D × W)) (batch : List Arrival) (p : Mem) :
    Option Arrival :=
  match request p with
  | some (.cancel co) =>
    if s.l = true ∧ co.token.str ∈ s.activeOrders then
      some
        { req := .parseCancelOrder co
          candidate := co.qty = 0 ∧ ∀ a ∈ batch, a.candidate = true → a.req.token.str ≠ co.token.str
          queued := (gate d E .cancelOrder s.env).1 }
    else none
  | _ => none

/-- The requests of a batch, each with the session at its turn in `cancel_logic`. A request that has
not been queued has no turn, and stands where it would have had it. -/
def turns (st : Pass (BehaviorManager D × W)) :
    List Arrival → List (Arrival × Pass (BehaviorManager D × W))
  | [] => []
  | a :: as => (a, st) :: turns (if a.queued then cancelStep (managed d E) st a.req else st) as

/-- The request is answered by an `OrderCanceled` for its token at its turn. -/
def answered (t : Arrival × Pass (BehaviorManager D × W)) : Bool :=
  t.1.queued &&
    ((cancelStep (managed d E) t.2 t.1.req).1.pendingOutMessages.drop
      t.2.1.pendingOutMessages.length).any fun m =>
        match m with
        | .orderCanceled m => m.token = t.1.req.token
        | _ => false

/-- The full cancels of a batch whose orders are still active when `cancel_logic` runs. -/
def candidates (s : OuchSession (BehaviorManager D × W)) (batch : List Arrival) :
    List (Arrival × Pass (BehaviorManager D × W)) :=
  (turns d E (s, []) batch).filter fun t => t.1.candidate && t.1.req.token.str ∈ s.activeOrders

/-- A session with the requests since the last tick and, for every candidate so far in arrival order,
whether it was answered and whether its order was removed. -/
structure CancelAudit (D W : Type) where
  session : OuchSession (BehaviorManager D × W)
  batch : List Arrival
  log : List (Bool × Bool)

namespace CancelAudit

/-- The session that `cancel_logic` finds on a tick. -/
def found (a : CancelAudit D W) : OuchSession (BehaviorManager D × W) :=
  heartbeatLogic (managed d E) a.session

/-- One event. -/
def step (a : CancelAudit D W) (e : Event) : CancelAudit D W :=
  let s := OuchSession.step (managed d E) a.session e
  match e with
  | .packet p => { a with session := s, batch := a.batch ++ (arrival d E a.session a.batch p).toList }
  | .marketLogic =>
    { session := s
      batch := []
      log := a.log ++ (candidates d E (a.found d E) a.batch).map fun t =>
        (answered d E t,
          decide (t.1.req.token.str ∉ (cancelLogic (managed d E) (a.found d E)).activeOrders)) }
  | _ => { a with session := s }

/-- A new session behind `bm set count cancel_order`. -/
def init (m : BehaviorManager D) (text : String) (w : W) : CancelAudit D W :=
  { session := OuchSession.init (managed d E)
      ((m.command d (.set ["count", "cancel_order", text])).1, w)
    batch := []
    log := [] }

/-- Exactly the first `n` candidates are answered and have their orders removed. -/
def CountsCancels (n : ℤ) (a : CancelAudit D W) : Prop :=
  ∀ (i : ℕ) (e : Bool × Bool), a.log[i]? = some e → e = (decide ((i : ℤ) < n), decide ((i : ℤ) < n))

/-- Units are left for every candidate of a tick, on arrival and again at its turn. -/
def UnitsTwice (a : CancelAudit D W) : Event → Prop
  | .marketLogic => ∀ t ∈ candidates d E (a.found d E) a.batch,
      t.1.queued = true ∧ 0 < (units .cancelOrder t.2.1.env).2
  | _ => True

instance (a : CancelAudit D W) : ∀ e, Decidable (UnitsTwice d E a e)
  | .marketLogic => inferInstanceAs (Decidable (∀ _ ∈ _, _ ∧ _))
  | .setLogger => isTrue trivial
  | .packet _ => isTrue trivial
  | .cancelAll => isTrue trivial
  | .disconnect => isTrue trivial

end CancelAudit

/-! ## One request at its turn -/

/-- What the answer at a turn comes down to. -/
theorem answered_cases {t : Arrival × Pass (BehaviorManager D × W)} (hq : t.1.queued = true) :
    (answered d E t = false) ∨
    (answered d E t = true ∧ t.1.req.token.str ∈ t.2.1.activeOrders ∧
      (gate d E .cancelOrder t.2.1.env).1 = true) := by
  obtain ⟨⟨req, candidate, queued⟩, st⟩ := t
  obtain rfl : queued = true := hq
  unfold answered
  rw [Bool.true_and]
  dsimp only
  rcases cancelStep_cases (managed d E) st req with ⟨-, w, m, h⟩ | ⟨o, ho, hgate, ⟨-, w, m, htoken,
    -, h⟩ | ⟨-, -, w, h⟩ | ⟨-, -, w, m, htoken, -, h⟩⟩ <;> rw [h]
  · left
    simp
  · right
    refine ⟨?_, KeyedMap.mem_of_lookup ho, hgate⟩
    simp [htoken]
  · left
    simp
  · right
    refine ⟨?_, KeyedMap.mem_of_lookup ho, hgate⟩
    simp [htoken]

/-- A full cancel that finds its order and an open gate is answered, and its token is collected. -/
theorem answered_full {t : Arrival × Pass (BehaviorManager D × W)} (hq : t.1.queued = true)
    (hqty : t.1.req.qty = 0) (hact : t.1.req.token.str ∈ t.2.1.activeOrders)
    (hgate : (gate d E .cancelOrder t.2.1.env).1 = true) :
    answered d E t = true ∧
      t.1.req.token.str ∈ (cancelStep (managed d E) t.2 t.1.req).2 := by
  obtain ⟨⟨req, candidate, queued⟩, st⟩ := t
  obtain rfl : queued = true := hq
  unfold answered
  rw [Bool.true_and]
  dsimp only at *
  rcases cancelStep_cases (managed d E) st req with ⟨hnot, w, m, h⟩ | ⟨o, ho, -, ⟨-, w, m, htoken,
    -, h⟩ | ⟨hne, -, w, h⟩ | ⟨hne, -, w, m, htoken, -, h⟩⟩
  · rcases hnot with hnot | hnot
    · exact absurd hact hnot
    · exact absurd (hgate.symm.trans hnot) Bool.noConfusion
  · rw [h]
    refine ⟨?_, List.mem_append_right _ List.mem_cons_self⟩
    simp [htoken]
  · exact absurd hqty hne
  · exact absurd hqty hne

/-- A cancel takes no order out of the book before the end of the pass. -/
theorem mem_cancelStep {W : Type} (E : Env W) {st : Pass W} {k : Key} (h : k ∈ st.1.activeOrders)
    (co : OuchCancelOrderReq) : k ∈ (cancelStep E st co).1.activeOrders := by
  rcases cancelStep_cases E st co with ⟨-, w, m, hs⟩ | ⟨o, -, -, ⟨-, w, m, -, -, hs⟩ |
    ⟨-, -, w, hs⟩ | ⟨-, -, w, m, -, -, hs⟩⟩ <;> rw [hs]
  · exact h
  · exact h
  · exact h
  · exact (AList.mem_insert _).mpr (.inr h)

/-- The collected tokens stay collected. -/
theorem collected_cancelStep {W : Type} (E : Env W) {st : Pass W} {k : Key} (h : k ∈ st.2)
    (co : OuchCancelOrderReq) : k ∈ (cancelStep E st co).2 := by
  rcases cancelStep_cases E st co with ⟨-, w, m, hs⟩ | ⟨o, -, -, ⟨-, w, m, -, -, hs⟩ |
    ⟨-, -, w, hs⟩ | ⟨-, -, w, m, -, -, hs⟩⟩ <;> rw [hs]
  · exact h
  · exact List.mem_append_left _ h
  · exact h
  · exact h

/-! ## A pass over a batch -/

/-- The end of the pass: the queued requests have had their turns. -/
def passed (st : Pass (BehaviorManager D × W)) (as : List Arrival) :
    Pass (BehaviorManager D × W) :=
  Machine.run (cancelStep (managed d E)) st ((as.filter Arrival.queued).map Arrival.req)

/-- The requests of a batch have their turns one by one. -/
theorem passed_cons (st : Pass (BehaviorManager D × W)) (a : Arrival) (as : List Arrival) :
    passed d E st (a :: as) =
      passed d E (if a.queued then cancelStep (managed d E) st a.req else st) as := by
  unfold passed
  rcases hq : a.queued with _ | _
  · rw [List.filter_cons_of_neg (by rw [hq]; exact Bool.false_ne_true), if_neg Bool.false_ne_true]
  · rw [List.filter_cons_of_pos hq, if_pos rfl]
    rfl

/-- An order that is active before the pass is active at every turn. -/
theorem mem_turns {st : Pass (BehaviorManager D × W)} {as : List Arrival}
    {t : Arrival × Pass (BehaviorManager D × W)} (ht : t ∈ turns d E st as) {k : Key}
    (hk : k ∈ st.1.activeOrders) : k ∈ t.2.1.activeOrders := by
  induction as generalizing st with
  | nil => exact nomatch ht
  | cons a as ih =>
    rcases List.mem_cons.mp ht with rfl | ht
    · exact hk
    · refine ih ht ?_
      split
      · exact mem_cancelStep _ hk a.req
      · exact hk

/-- The turns are those of the arrivals. -/
theorem map_fst_turns (st : Pass (BehaviorManager D × W)) (as : List Arrival) :
    (turns d E st as).map Prod.fst = as := by
  induction as generalizing st with
  | nil => rfl
  | cons a as ih => rw [turns, List.map_cons, ih]

/-- The cancel gate keeps counting from turn to turn. -/
theorem counts_turns {st : Pass (BehaviorManager D × W)} {as : List Arrival}
    {t : Arrival × Pass (BehaviorManager D × W)} (ht : t ∈ turns d E st as) {k : ℤ}
    (hk : units .cancelOrder st.1.env = (.count, k)) :
    ∃ k', units .cancelOrder t.2.1.env = (.count, k') := by
  induction as generalizing st k with
  | nil => exact nomatch ht
  | cons a as ih =>
    rcases List.mem_cons.mp ht with rfl | ht
    · exact ⟨k, hk⟩
    obtain ⟨-, hunits⟩ := gate_count d E hk
    have hstep := keeps_cancelStep (keeps_units d E .cancelOrder) st a.req
    by_cases hact : a.req.token.str ∈ st.1.activeOrders
    · rw [if_pos hact] at hstep
      rcases hq : a.queued with _ | _
      · rw [hq, if_neg Bool.false_ne_true] at ht
        exact ih ht hk
      · rw [hq, if_pos rfl] at ht
        exact ih ht (hstep.trans hunits)
    · rw [if_neg hact] at hstep
      split at ht
      · exact ih ht (hstep.trans hk)
      · exact ih ht hk

/-- What is collected at a turn is collected at the end. -/
theorem collected_of_turn {st : Pass (BehaviorManager D × W)} {as : List Arrival}
    {t : Arrival × Pass (BehaviorManager D × W)} (ht : t ∈ turns d E st as)
    (hq : t.1.queued = true) {k : Key} (hk : k ∈ (cancelStep (managed d E) t.2 t.1.req).2) :
    k ∈ (passed d E st as).2 := by
  induction as generalizing st with
  | nil => exact nomatch ht
  | cons a as ih =>
    rw [passed_cons]
    rcases List.mem_cons.mp ht with rfl | ht
    · rw [if_pos hq]
      exact Machine.run_invariant (I := fun st : Pass (BehaviorManager D × W) => k ∈ st.2)
        (fun st co h => collected_cancelStep _ h co) hk _
    · exact ih ht

/-- Every answer of a pass takes a unit. -/
theorem units_passed {st : Pass (BehaviorManager D × W)} {k : ℤ}
    (hk : units .cancelOrder st.1.env = (.count, k)) (h0 : 0 ≤ k) (as : List Arrival) :
    ∃ k', units .cancelOrder (passed d E st as).1.env = (.count, k') ∧ 0 ≤ k' ∧
      k' + (turns d E st as).countP (answered d E) ≤ k := by
  induction as generalizing st k with
  | nil => exact ⟨k, hk, h0, by simp [turns]⟩
  | cons a as ih =>
    rw [passed_cons, turns, List.countP_cons]
    rcases hq : a.queued with _ | _
    · have hno : answered d E (a, st) = false := by
        unfold answered
        rw [hq, Bool.false_and]
      rw [if_neg Bool.false_ne_true, if_neg (by rw [hno]; exact Bool.false_ne_true), Nat.add_zero]
      exact ih hk h0
    · rw [if_pos rfl]
      obtain ⟨hgate, hunits⟩ := gate_count d E hk
      have hstep := keeps_cancelStep (keeps_units d E .cancelOrder) st a.req
      rcases answered_cases d E (t := (a, st)) hq with hno | ⟨hyes, hact, hopen⟩
      · rw [if_neg (by rw [hno]; exact Bool.false_ne_true), Nat.add_zero]
        -- an unanswered request may take a unit all the same
        have hle : ∃ k₁, units .cancelOrder (cancelStep (managed d E) st a.req).1.env =
            (.count, k₁) ∧ 0 ≤ k₁ ∧ k₁ ≤ k := by
          rw [hstep]
          split
          · refine ⟨_, hunits, ?_, ?_⟩
            · split <;> omega
            · split <;> omega
          · exact ⟨k, hk, h0, le_refl k⟩
        obtain ⟨k₁, hk₁, h1, hle₁⟩ := hle
        obtain ⟨k', hk', h', hsum⟩ := ih hk₁ h1
        exact ⟨k', hk', h', hsum.trans hle₁⟩
      · have hpos : 0 < k := of_decide_eq_true (hgate.symm.trans hopen)
        rw [if_pos hact] at hstep
        have hk₁ := hstep.trans hunits
        rw [if_pos hpos] at hk₁
        obtain ⟨k', hk', h', hsum⟩ := ih hk₁ (by omega)
        refine ⟨k', hk', h', ?_⟩
        rw [if_pos hyes]
        push_cast
        omega

/-! ## The invariant of a run -/

namespace CancelAudit

/-- The units left, two for every answer so far and one for every request that waits are within `n`;
the waiting requests are those of the batch; and with `n = 0` nothing has been answered. -/
structure Inv (n : ℤ) (a : CancelAudit D W) : Prop where
  units : ∃ k, units .cancelOrder a.session.env = (.count, k) ∧ 0 ≤ k ∧
    k + 2 * a.log.countP Prod.fst + a.batch.countP Arrival.queued ≤ n
  queue : a.session.pendingCancel = (a.batch.filter Arrival.queued).map Arrival.req
  full : ∀ b ∈ a.batch, b.candidate = true → b.req.qty = 0
  zero : n = 0 → ∀ e ∈ a.log, e = (false, false)

/-- The audit starts with the units of the command. -/
theorem inv_init {m : BehaviorManager D} {text : String} {n : ℤ} (htext : stoi text = some n)
    (hn : 0 ≤ n) (w : W) : Inv n (init d E m text w) where
  units := by
    refine ⟨n, ?_, hn, by simp [init]⟩
    have hneg : ¬ n < 0 := by omega
    show BehaviorManager.units .cancelOrder ((m.setCount ["count", "cancel_order", text]).1, _) = _
    dsimp only [setCount]
    rw [htext]
    dsimp only
    rw [if_neg hneg]
    show (Function.update m.behavior .cancelOrder .count .cancelOrder,
      Function.update m.times .cancelOrder n .cancelOrder) = _
    rw [Function.update_self, Function.update_self]
  queue := rfl
  full b hb := nomatch hb
  zero _ e he := nomatch he

/-- A step that concerns no cancel. -/
theorem Inv.of_eq {n : ℤ} {a : CancelAudit D W} (h : Inv n a)
    {s : OuchSession (BehaviorManager D × W)}
    (hunits : BehaviorManager.units .cancelOrder s.env =
      BehaviorManager.units .cancelOrder a.session.env)
    (hqueue : s.pendingCancel = a.session.pendingCancel) : Inv n { a with session := s } :=
  ⟨hunits ▸ h.units, hqueue.trans h.queue, h.full, h.zero⟩

/-- A packet that is no cancel of an active order does not arrive at the gate. -/
theorem arrival_none {s : OuchSession (BehaviorManager D × W)} {batch : List Arrival} {p : Mem}
    (h : ∀ co, request p = some (.cancel co) → s.l = true → co.token.str ∉ s.activeOrders) :
    arrival d E s batch p = none := by
  unfold arrival
  split
  · rename_i co hr
    rw [if_neg fun hc => h co hr hc.1 hc.2]
  · rfl

/-- A `CancelOrder` that finds its order active takes a unit if one is left, and is queued then. -/
theorem inv_arrival {n : ℤ} {a : CancelAudit D W} (h : Inv n a) {p : Mem} {co : CancelOrder}
    (hr : request p = some (.cancel co)) (hl : a.session.l = true)
    (hact : co.token.str ∈ a.session.activeOrders) :
    Inv n { a with
      session := cancelOrder (managed d E) a.session co
      batch := a.batch ++ (arrival d E a.session a.batch p).toList } := by
  obtain ⟨k, hk, h0, hsum⟩ := h.units
  obtain ⟨hgate, hunits⟩ := gate_count d E hk
  have harr : arrival d E a.session a.batch p = some
      { req := .parseCancelOrder co
        candidate := co.qty = 0 ∧
          ∀ b ∈ a.batch, b.candidate = true → b.req.token.str ≠ co.token.str
        queued := (gate d E .cancelOrder a.session.env).1 } := by
    unfold arrival
    rw [hr]
    exact if_pos ⟨hl, hact⟩
  rw [harr, Option.toList_some]
  have henv := env_cancelOrder (E := managed d E) a.session co
  rw [if_pos hact] at henv
  have hfull : ∀ b ∈ a.batch ++ [{ req := .parseCancelOrder co
                                   candidate := co.qty = 0 ∧ ∀ b ∈ a.batch, b.candidate = true →
                                     b.req.token.str ≠ co.token.str
                                   queued := (gate d E .cancelOrder a.session.env).1 }],
      b.candidate = true → b.req.qty = 0 := by
    intro b hb hc
    rcases List.mem_append.mp hb with hb | hb
    · exact h.full b hb hc
    · rw [List.mem_singleton.mp hb] at hc ⊢
      exact (of_decide_eq_true hc).1
  -- the units, then the queue
  refine ⟨?_, ?_, hfull, h.zero⟩
  · show ∃ k, BehaviorManager.units .cancelOrder (cancelOrder _ _ _).env = _ ∧ _
    rw [henv]
    refine ⟨_, hunits, ?_, ?_⟩
    · split <;> omega
    · rw [List.countP_append, List.countP_singleton]
      dsimp only
      rw [hgate]
      -- a unit is taken exactly if there is one, and then the request is queued
      by_cases hpos : 0 < k
      · rw [if_pos hpos, if_pos (decide_eq_true hpos)]
        push_cast
        omega
      · rw [if_neg hpos, if_neg (by simpa using hpos)]
        push_cast
        omega
  · show (cancelOrder (managed d E) a.session co).pendingCancel = _
    rw [List.filter_append, List.map_append, ← h.queue]
    rcases cancelOrder_cases (managed d E) a.session co with ⟨hnot, w, hs⟩ | ⟨-, hopen, w, hs⟩
    · have hclosed : (gate d E .cancelOrder a.session.env).1 = false :=
        hnot.resolve_left (not_not.mpr hact)
      rw [hs, hclosed]
      simp
    · have hopen' : (gate d E .cancelOrder a.session.env).1 = true := hopen
      rw [hs, hopen']
      simp

/-- A packet takes a unit if it is a cancel of an active order. -/
theorem inv_packet {n : ℤ} {a : CancelAudit D W} (h : Inv n a) (p : Mem) :
    Inv n (step d E a (.packet p)) := by
  have hkeeps := keeps_units d E .cancelOrder
  show Inv n { a with
    session := OuchSession.step (managed d E) a.session (.packet p)
    batch := a.batch ++ (arrival d E a.session a.batch p).toList }
  -- any packet but a cancel of an active order leaves the units and the queue alone
  have hother : (∀ co, request p = some (.cancel co) → a.session.l = true →
        co.token.str ∉ a.session.activeOrders) → ∀ s : OuchSession (BehaviorManager D × W),
      BehaviorManager.units .cancelOrder s.env =
        BehaviorManager.units .cancelOrder a.session.env →
      s.pendingCancel = a.session.pendingCancel →
      Inv n { a with session := s, batch := a.batch ++ (arrival d E a.session a.batch p).toList } := by
    intro hnone s hunits hqueue
    rw [arrival_none d E hnone, Option.toList_none, List.append_nil]
    exact h.of_eq hunits hqueue
  rcases step_packet (managed d E) a.session p with ⟨hno, hs⟩ | ⟨r, hl, hr, hs⟩ <;> rw [hs]
  · refine hother (fun co hco hl => ?_) _ rfl rfl
    rcases hno with hno | hno
    · exact absurd (hl.symm.trans hno) Bool.noConfusion
    · exact absurd (hco.symm.trans hno) (Option.some_ne_none _)
  have hnot : (∀ co, r ≠ .cancel co) → ∀ co, request p = some (.cancel co) →
      a.session.l = true → co.token.str ∉ a.session.activeOrders := by
    intro hne co hco
    exact absurd (Option.some.inj (hr.symm.trans hco)) (hne co)
  cases r with
  | login =>
    exact hother (hnot fun _ hc => Request.noConfusion hc) _ (keeps_handleLoginRequest hkeeps (by decide) _)
      (idle_handleLoginRequest _ _).pendingCancel
  | logout => exact hother (hnot fun _ hc => Request.noConfusion hc) _ rfl rfl
  | heartbeat => exact hother (hnot fun _ hc => Request.noConfusion hc) _ rfl rfl
  | enter eo =>
    refine hother (hnot fun _ hc => Request.noConfusion hc) _ ?_ ?_
    · refine (keeps_enterOrder hkeeps _ eo).trans ?_
      split
      · exact hkeeps.gate .newOrder (by decide) _
      · rfl
    · rcases enterOrder_cases (managed d E) a.session eo with
        ⟨-, w, he | ⟨m, he⟩⟩ | ⟨-, w, o, m, -, -, he⟩ <;> rw [handle, he] <;> rfl
  | replace ro =>
    refine hother (hnot fun _ hc => Request.noConfusion hc) _ (keeps_replaceOrder hkeeps (by decide) _ ro) ?_
    rcases replaceOrder_cases (managed d E) a.session ro with ⟨-, w, he⟩ | ⟨-, w, he⟩ <;>
      rw [handle, he] <;> rfl
  | modify mo =>
    refine hother (hnot fun _ hc => Request.noConfusion hc) _ (keeps_modifyOrder hkeeps (by decide) _ mo) ?_
    rcases modifyOrder_cases (managed d E) a.session mo with ⟨-, w, he⟩ | ⟨-, -, w, he⟩ <;>
      rw [handle, he] <;> rfl
  | cancel co =>
    by_cases hact : co.token.str ∈ a.session.activeOrders
    · -- the gate is asked on receipt only for an active order
      exact inv_arrival d E h hr hl hact
    · refine hother ?_ _ ?_ ?_
      · intro co' hco' _
        obtain rfl : co = co' := by
          have heq := Option.some.inj (hr.symm.trans hco')
          injection heq
        exact hact
      · exact congrArg _ ((env_cancelOrder _ _).trans (if_neg hact))
      · rcases cancelOrder_cases (managed d E) a.session co with ⟨-, w, he⟩ | ⟨hmem, -⟩
        · rw [handle, he]
          rfl
        · exact absurd hmem hact

/-- The pass of a tick over the queue is the pass over the batch. -/
theorem cancelLogic_found {n : ℤ} {a : CancelAudit D W} (h : Inv n a) :
    cancelLogic (managed d E) (a.found d E) =
      finishPass ({ (passed d E (a.found d E, []) a.batch).1 with pendingCancel := [] },
        (passed d E (a.found d E, []) a.batch).2) := by
  have hqueue : (a.found d E).pendingCancel = (a.batch.filter Arrival.queued).map Arrival.req :=
    (idle_heartbeatLogic _ _).pendingCancel.trans h.queue
  unfold cancelLogic passed Session.cancelLogic
  rw [hqueue]

/-- A tick takes a unit for every queued request that finds its order. -/
theorem inv_tick {n : ℤ} {a : CancelAudit D W} (h : Inv n a) :
    Inv n (step d E a .marketLogic) := by
  have hkeeps := keeps_units d E .cancelOrder
  have hcancel := cancelLogic_found d E h
  obtain ⟨k, hk, h0, hsum⟩ := h.units
  have hfound : BehaviorManager.units .cancelOrder (a.found d E).env = (.count, k) :=
    (keeps_heartbeatLogic hkeeps a.session).trans hk
  obtain ⟨k', hk', h0', htook⟩ :=
    @units_passed _ _ d E (a.found d E, []) _ hfound h0 a.batch
  have hcandidates : (candidates d E (a.found d E) a.batch).countP (answered d E) ≤
      (turns d E (a.found d E, []) a.batch).countP (answered d E) :=
    List.filter_sublist.countP_le
  have hwaiting : (turns d E (a.found d E, []) a.batch).countP (answered d E) ≤
      a.batch.countP Arrival.queued := by
    have hmap := List.countP_map (p := Arrival.queued) (f := Prod.fst)
      (l := turns d E (a.found d E, []) a.batch)
    rw [map_fst_turns] at hmap
    rw [hmap]
    refine List.countP_mono_left fun t _ ht => ?_
    unfold answered at ht
    exact (Bool.and_eq_true_iff.mp ht).1
  refine ⟨⟨k', ?_, h0', ?_⟩, (marketLogic_queues _ a.session).1,
    List.forall_mem_nil _, ?_⟩
  · refine (keeps_executionLogic hkeeps (by decide) _).trans ?_
    refine (keeps_replaceLogic hkeeps _).trans ((keeps_modifyLogic hkeeps _).trans ?_)
    show BehaviorManager.units .cancelOrder (cancelLogic (managed d E) (a.found d E)).env = _
    rw [hcancel]
    exact hk'
  · show k' + 2 * (a.log ++ (candidates d E (a.found d E) a.batch).map _).countP Prod.fst +
      ([] : List Arrival).countP Arrival.queued ≤ n
    rw [List.countP_append, List.countP_map, List.countP_nil]
    have hcount : (candidates d E (a.found d E) a.batch).countP (Prod.fst ∘ fun t =>
        (answered d E t, decide (t.1.req.token.str ∉
          (cancelLogic (managed d E) (a.found d E)).activeOrders))) =
        (candidates d E (a.found d E) a.batch).countP (answered d E) := rfl
    rw [hcount]
    push_cast
    omega
  · intro hzero e he
    rcases List.mem_append.mp he with he | he
    · exact h.zero hzero e he
    obtain ⟨t, ht, rfl⟩ := List.mem_map.mp he
    obtain ⟨htmem, htact⟩ := List.mem_filter.mp ht
    -- no unit has ever been there, so the queue is empty
    have hnone : ∀ b ∈ a.batch, b.queued = false := by
      have hcount : a.batch.countP Arrival.queued = 0 := by omega
      intro b hb
      exact Bool.eq_false_iff.mpr (List.countP_eq_zero.mp hcount b hb)
    have hfst : t.1 ∈ a.batch := by
      rw [← map_fst_turns d E (a.found d E, []) a.batch]
      exact List.mem_map_of_mem htmem
    have hfilter : a.batch.filter Arrival.queued = [] :=
      List.filter_eq_nil_iff.mpr fun b hb => Bool.eq_false_iff.mp (hnone b hb)
    have hstays : (cancelLogic (managed d E) (a.found d E)).activeOrders =
        (a.found d E).activeOrders := by
      rw [hcancel]
      unfold passed
      rw [hfilter]
      rfl
    rw [hstays]
    refine Prod.ext ?_ ?_
    · show answered d E t = false
      unfold answered
      rw [hnone _ hfst, Bool.false_and]
    · exact decide_eq_false (not_not.mpr (of_decide_eq_true (Bool.and_eq_true_iff.mp htact).2))

/-- Every event keeps the count of units. -/
theorem inv_step {n : ℤ} {a : CancelAudit D W} (h : Inv n a) (e : Event) :
    Inv n (step d E a e) := by
  cases e with
  | setLogger => exact h.of_eq rfl rfl
  | packet p => exact inv_packet d E h p
  | marketLogic => exact inv_tick d E h
  | cancelAll =>
    exact h.of_eq (keeps_cancelAll (keeps_units d E .cancelOrder) a.session)
      (cancelAll_frame _ a.session).1.pendingCancel
  | disconnect => exact h.of_eq rfl rfl

/-! ## Counting -/

/-- Every candidate so far has been answered and its order removed. -/
def AllThrough (a : CancelAudit D W) : Prop := ∀ e ∈ a.log, e = (true, true)

/-- A candidate goes through exactly if a unit is left for it twice. -/
theorem through_iff {n : ℤ} {a : CancelAudit D W} (h : Inv n a)
    {t : Arrival × Pass (BehaviorManager D × W)}
    (ht : t ∈ candidates d E (a.found d E) a.batch) :
    (answered d E t, decide (t.1.req.token.str ∉
        (cancelLogic (managed d E) (a.found d E)).activeOrders)) = (true, true) ↔
      t.1.queued = true ∧ 0 < (BehaviorManager.units .cancelOrder t.2.1.env).2 := by
  obtain ⟨k, hk, -, -⟩ := h.units
  have hfound : BehaviorManager.units .cancelOrder (a.found d E).env = (.count, k) :=
    (keeps_heartbeatLogic (keeps_units d E .cancelOrder) a.session).trans hk
  obtain ⟨htmem, hct⟩ := List.mem_filter.mp ht
  obtain ⟨hcand, hact⟩ := Bool.and_eq_true_iff.mp hct
  obtain ⟨k', hk'⟩ := counts_turns d E htmem hfound
  obtain ⟨hgate, -⟩ := gate_count d E hk'
  have hfst : t.1 ∈ a.batch := by
    rw [← map_fst_turns d E (a.found d E, []) a.batch]
    exact List.mem_map_of_mem htmem
  have hmem := mem_turns d E htmem (of_decide_eq_true hact)
  rw [hk']
  constructor
  · -- an answer means that the gate was open at the turn
    intro hboth
    have hans : answered d E t = true := (Prod.mk.inj hboth).1
    have hq : t.1.queued = true := by
      unfold answered at hans
      exact (Bool.and_eq_true_iff.mp hans).1
    rcases answered_cases d E hq with hno | ⟨-, -, hopen⟩
    · exact absurd (hans.symm.trans hno) Bool.noConfusion
    · exact ⟨hq, of_decide_eq_true (hgate.symm.trans hopen)⟩
  · rintro ⟨hq, hpos⟩
    -- an open gate answers the full cancel and collects its order
    obtain ⟨hans, hcol⟩ := answered_full d E hq (h.full _ hfst hcand) hmem
      (hgate.trans (decide_eq_true hpos))
    have hgone := collected_of_turn d E htmem hq hcol
    refine Prod.ext hans (decide_eq_true ?_)
    rw [cancelLogic_found d E h]
    intro hin
    exact (KeyedMap.mem_eraseAll.mp hin).1 hgone

/-- Every cancel so far has gone through exactly if those before have and units are left twice for each of
this event. -/
theorem allThrough_step {n : ℤ} {a : CancelAudit D W} (h : Inv n a) (e : Event) :
    AllThrough (step d E a e) ↔ AllThrough a ∧ UnitsTwice d E a e := by
  cases e with
  | marketLogic =>
    show (∀ e ∈ a.log ++ (candidates d E (a.found d E) a.batch).map _, _) ↔ _
    rw [List.forall_mem_append, List.forall_mem_map]
    exact and_congr_right fun _ => forall₂_congr fun t ht => through_iff d E h ht
  | _ => exact (and_iff_left trivial).symm

/-- If the first `n` pass, at least `n` pass. -/
theorem countP_take_of_first {l : List (Bool × Bool)} {n : ℕ} (hn : n ≤ l.length)
    (h : ∀ (i : ℕ) (e : Bool × Bool), l[i]? = some e → i < n → e.1 = true) :
    n ≤ l.countP Prod.fst := by
  have hall : (l.take n).countP Prod.fst = (l.take n).length := by
    rw [List.countP_eq_length]
    intro e he
    obtain ⟨i, hi⟩ := List.mem_iff_getElem?.mp he
    have hlt : i < n := by
      by_contra hge
      rw [List.getElem?_take, if_neg hge] at hi
      exact nomatch hi
    rw [List.getElem?_take, if_pos hlt] at hi
    exact h i e hi hlt
  have hle := (List.take_sublist n l).countP_le (p := Prod.fst)
  rw [hall, List.length_take, min_eq_left hn] at hle
  exact hle

/-- Two units for every answer leave no room for `n` answers, unless `n` is 0. -/
theorem countsCancels_iff {n : ℤ} (hn : 0 ≤ n) {a : CancelAudit D W} (h : Inv n a) :
    CountsCancels n a ↔ n = 0 ∨ AllThrough a := by
  obtain ⟨k, -, h0, hsum⟩ := h.units
  constructor
  · intro hcounts
    by_cases hzero : n = 0
    · exact .inl hzero
    right
    -- the first `n` passing would take more units than the command has given
    have hshort : (a.log.length : ℤ) < n := by
      by_contra hlong
      have hfirst := countP_take_of_first (l := a.log) (n := n.toNat) (by omega) fun i e hi hlt => by
        rw [hcounts i e hi]
        exact decide_eq_true (by omega)
      omega
    intro e he
    obtain ⟨i, hi⟩ := List.mem_iff_getElem?.mp he
    have hlt : i < a.log.length := (List.getElem?_eq_some_iff.mp hi).1
    have hin : (i : ℤ) < n := by omega
    rw [hcounts i e hi, decide_eq_true hin]
  · rintro (hzero | hall) i e hi
    · have hin : ¬ (i : ℤ) < n := by omega
      rw [h.zero hzero e (List.mem_of_getElem? hi), decide_eq_false hin]
    · -- all have passed, so there are fewer than `n`
      have hcount : a.log.countP Prod.fst = a.log.length := by
        rw [List.countP_eq_length]
        intro e he
        rw [hall e he]
      have hlt : i < a.log.length := (List.getElem?_eq_some_iff.mp hi).1
      have hin : (i : ℤ) < n := by omega
      rw [hall e (List.mem_of_getElem? hi), decide_eq_true hin]

/-- **Counted cancels.** Behind `bm set count cancel_order n` exactly the first `n` full cancels of
active orders go through, exactly when `n` is 0 or every one of them finds a unit both on arrival and
at its turn. -/
theorem counted_cancels_iff (m : BehaviorManager D) {text : String} {n : ℤ}
    (htext : stoi text = some n) (hn : 0 ≤ n) (w : W) (es : List Event) :
    CountsCancels n (Machine.run (step d E) (init d E m text w) es) ↔
      n = 0 ∨ Along (step d E) (UnitsTwice d E) (init d E m text w) es := by
  have hinit := inv_init d E (m := m) htext hn w
  have hrun := run_invariant (f := step d E) (I := Inv n) (fun a e h => inv_step d E h e) hinit es
  rw [countsCancels_iff hn hrun]
  refine or_congr_right ?_
  have hany : Along (step d E) (fun _ _ => True) (init d E m text w) es :=
    along_of_forall fun _ _ => trivial
  have hthrough := run_iff_along (f := step d E) (I := fun a : CancelAudit D W => Inv n a)
    (P := fun a : CancelAudit D W => AllThrough a) (fun a e h _ => inv_step d E h e)
    (fun a e h _ => allThrough_step d E h e) hinit hany
  rw [hthrough]
  exact and_iff_right fun e he => nomatch he

/-- With two units one cancel goes through, and the next one is refused on arrival after its order has
gone. -/
theorem counted_cancels_two :
    CountsCancels 2 (Machine.run (step oneDouble quietEnv) (init oneDouble quietEnv (.new oneDouble)
      "2" ()) (loggedIn ++ [enterPacket 'a' 100, cancelPacket 'a' 0, .marketLogic,
        cancelPacket 'a' 0])) :=
  (counted_cancels_iff oneDouble quietEnv (.new oneDouble)
    (show stoi "2" = some 2 by decide +kernel) (by decide) () _).mpr (.inr (by decide +kernel))

/-- With one unit a single cancel is let through on arrival and rejected at its turn. -/
theorem not_counted_cancels :
    ¬ ∀ (D W : Type) (d : Double D) (E : Env W) (m : BehaviorManager D) (text : String) (n : ℤ),
      stoi text = some n → 0 ≤ n → ∀ (w : W) (es : List Event),
        CountsCancels n (Machine.run (step d E) (init d E m text w) es) := by
  intro h
  have hfirst := h Unit Unit oneDouble quietEnv (.new oneDouble) "1" 1 (by decide +kernel) (by decide)
    () (loggedIn ++ [enterPacket 'a' 100, cancelPacket 'a' 0, .marketLogic]) 0 (false, false)
    (by decide +kernel)
  revert hfirst
  decide

end CancelAudit

end OuchSession

end Evtsim
