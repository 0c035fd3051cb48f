import Evtsim.BehaviorManager
import Evtsim.Surroundings
import Evtsim.Ouch.Steps
import Evtsim.Boe.Steps
import Evtsim.Ouch.Emission

/-!
# Two sessions and one behaviour manager (`evtsim_main.cpp`)

The servers of both protocols are built with a pointer to the same `BehaviorManager`. Here the manager
is part of the surroundings of both sessions (`managed`), each event moves one session, and the other
one finds the surroundings as the first has left them.

`counted_newOrders_iff` is about `bm set count new_order`: OUCH takes a unit for every order packet
before it looks for a duplicate, BOE after.
-/

namespace Evtsim

open BehaviorManager Session

variable {D W : Type} (d : Double D) (E : Env W)

/-- The surroundings of sessions whose behaviour manager is kept beside them. -/
def managed : Env (BehaviorManager D × W) :=
  { gate := BehaviorManager.gate d E
    executionQty := fun x => (x.1.executionQty.1, x.1.executionQty.2, x.2)
    time := fun x => ((E.time x.2).1, x.1, (E.time x.2).2)
    clock := fun x => ((E.clock x.2).1, x.1, (E.clock x.2).2)
    now := fun x => ((E.now x.2).1, x.1, (E.now x.2).2)
    rand := fun x => ((E.rand x.2).1, x.1, (E.rand x.2).2)
    midnight := E.midnight
    raw := fun x => ((E.raw x.2).1, x.1, (E.raw x.2).2)
    rawOuchOrder := fun x => ((E.rawOuchOrder x.2).1, x.1, (E.rawOuchOrder x.2).2)
    rawBoeOrder := fun x => ((E.rawBoeOrder x.2).1, x.1, (E.rawBoeOrder x.2).2)
    visit := fun ks x => ((E.visit ks x.2).1, x.1, (E.visit ks x.2).2) }

/-- The units that a counting gate has left. -/
def BehaviorManager.units (g : Gate) (x : BehaviorManager D × W) : Behavior × ℤ :=
  (x.1.behavior g, x.1.times g)

/-- A gate takes no units of another one. -/
theorem BehaviorManager.units_gate_of_ne {g g' : Gate} (hg : g' ≠ g) (x : BehaviorManager D × W) :
    units g (gate d E g' x).2 = units g x := by
  unfold gate
  split
  · rfl
  · rfl
  split
  · show (x.1.behavior g, Function.update x.1.times g' _ g) = _
    rw [Function.update_of_ne hg.symm]
    rfl
  · rfl

/-- The quantity of an execution takes no units. -/
theorem BehaviorManager.units_executionQty (g : Gate) (x : BehaviorManager D × W) :
    units g ((managed d E).executionQty x).2 = units g x := by
  show units g (x.1.executionQty.2, x.2) = _
  unfold executionQty
  split
  · rfl
  · rfl

/-- A counting gate lets a request through while it has units left, and takes one. -/
theorem BehaviorManager.gate_count {g : Gate} {x : BehaviorManager D × W} {k : ℤ}
    (hx : units g x = (.count, k)) :
    (gate d E g x).1 = decide (0 < k) ∧
      units g (gate d E g x).2 = (.count, if 0 < k then k - 1 else k) := by
  obtain ⟨hb, rfl⟩ := Prod.mk.inj hx
  unfold gate
  rw [hb]
  dsimp only
  by_cases hpos : 0 < x.1.times g
  · rw [if_pos hpos, if_pos hpos]
    refine ⟨(decide_eq_true hpos).symm, ?_⟩
    show (x.1.behavior g, Function.update x.1.times g _ g) = _
    rw [Function.update_self, hb]
  · rw [if_neg hpos, if_neg hpos]
    exact ⟨(decide_eq_false hpos).symm, hx⟩

/-- Only its own gate changes the units. -/
theorem keeps_units (g : Gate) : (managed d E).Keeps (units (D := D) (W := W) g) (· ≠ g) where
  gate _ hg := units_gate_of_ne d E hg
  time _ := rfl
  clock _ := rfl
  now _ := rfl
  rand _ := rfl
  raw _ := rfl
  rawOuchOrder _ := rfl
  rawBoeOrder _ := rfl
  visit _ _ := rfl

/-! ## Runs of both sessions -/

/-- The state of a simulator; each session carries the surroundings as it last left them. -/
structure Simulator (D W : Type) where
  env : BehaviorManager D × W
  ouch : OuchSession (BehaviorManager D × W)
  boe : BoeSession (BehaviorManager D × W)

namespace Simulator

/-- What can happen to a simulator. -/
inductive Event
  | ouch (e : OuchSession.Event)
  | boe (e : BoeSession.Event)
  | command (c : Command)

/-- An admin command to the behaviour manager. -/
def Event.isCommand : Event → Bool
  | .command _ => true
  | _ => false

/-- A new manager, then a session of either kind. -/
def init (w : W) : Simulator D W :=
  let ouch := OuchSession.init (managed d E) (BehaviorManager.new d, w)
  let boe := BoeSession.init (managed d E) ouch.env
  { env := boe.env, ouch := ouch, boe := boe }

/-- One event. -/
def step (x : Simulator D W) : Event → Simulator D W
  | .ouch e =>
    let s := OuchSession.step (managed d E) (x.ouch.inEnv x.env) e
    { x with env := s.env, ouch := s }
  | .boe e =>
    let s := BoeSession.step (managed d E) (x.boe.inEnv x.env) e
    { x with env := s.env, boe := s }
  | .command c => { x with env := ((x.env.1.command d c).1, x.env.2) }

/-! ## Order packets -/

/-- The order of a packet that passes validation, from a client who has logged in, within the limit
on shares. -/
def ouchOrder (x : Simulator D W) (p : Wire.Mem) : Option Ouch.EnterOrder :=
  match OuchSession.request p with
  | some (.enter eo) =>
    if x.ouch.l = true ∧ x.ouch.state = .loggedIn ∧ eo.qty ≤ Ouch.maxShares then some eo else none
  | _ => none

/-- The order of a packet. -/
def boeOrder (p : Wire.Mem) : Option Boe.NewOrder :=
  match BoeSession.request p with
  | some (.enter no) => some no
  | _ => none

/-- Whether an order packet brings a token that is in the maps that `enter_order` of its session
looks into; nothing for any other event. -/
def duplicate (x : Simulator D W) : Event → Option Bool
  | .ouch (.packet p) => (x.ouchOrder p).map fun eo =>
      eo.token.str ∈ x.ouch.activeOrders ∨ eo.token.str ∈ x.ouch.finishedOrders
  | .boe (.packet p) => (boeOrder p).map fun no => no.token.str ∈ x.boe.activeOrders
  | _ => none

/-- The event is answered by an `OrderAccepted` or `OrderAck`. -/
def Accepted (x : Simulator D W) : Event → Prop
  | .ouch e => ∃ m, (step d E x (.ouch e)).ouch.pendingOutMessages =
      x.ouch.pendingOutMessages ++ [.orderAccepted m]
  | .boe e => ∃ m, (step d E x (.boe e)).boe.pendingOutMessages =
      x.boe.pendingOutMessages ++ [.orderAck m]
  | .command _ => False

/-- The number of order packets with a fresh token in a run. -/
def freshCount (x : Simulator D W) : List Event → ℕ
  | [] => 0
  | e :: es => (if x.duplicate e = some false then 1 else 0) + freshCount (step d E x e) es

/-- The units that are left for new orders. -/
def newOrders (x : Simulator D W) : Behavior × ℤ := units .newOrder x.env

/-- In a run the first `n` order packets with a fresh token are accepted and no later one is; an order
packet with a duplicate token is not accepted and takes no unit. -/
def CountsNewOrders (n : ℤ) (x : Simulator D W) (es : List Event) : Prop :=
  ∀ pre e post, es = pre ++ e :: post →
    let y := Machine.run (step d E) x pre
    (y.duplicate e = some false → (Accepted d E y e ↔ freshCount d E x pre < n)) ∧
      (y.duplicate e = some true →
        ¬ Accepted d E y e ∧ newOrders (step d E y e) = newOrders y)

/-- The event is no OUCH order packet with a duplicate token, or no units are left. -/
def SparesUnits (x : Simulator D W) : Event → Prop
  | .ouch e => x.duplicate (.ouch e) = some true → (newOrders x).2 ≤ 0
  | _ => True

instance (x : Simulator D W) : ∀ e, Decidable (SparesUnits x e)
  | .ouch e => inferInstanceAs (Decidable (x.duplicate (.ouch e) = some true → (newOrders x).2 ≤ 0))
  | .boe _ => isTrue trivial
  | .command _ => isTrue trivial

/-! ## Units and acceptance, event by event -/

variable {d E}

/-- An OUCH packet brings a new order exactly if it gets as far as the gate. -/
theorem ouchOrder_eq_some {x : Simulator D W} {p : Wire.Mem} {eo : Ouch.EnterOrder} :
    x.ouchOrder p = some eo ↔ OuchSession.request p = some (.enter eo) ∧
      x.ouch.l = true ∧ x.ouch.state = .loggedIn ∧ eo.qty ≤ Ouch.maxShares := by
  unfold ouchOrder
  split
  · rename_i eo' hr
    rw [hr]
    split
    · rename_i hc
      constructor
      · intro h
        cases h
        exact ⟨rfl, hc⟩
      · rintro ⟨h, -⟩
        cases h
        rfl
    · rename_i hc
      refine iff_of_false (fun h => nomatch h) ?_
      rintro ⟨h, hc'⟩
      cases h
      exact hc hc'
  · rename_i hr
    refine iff_of_false (fun h => nomatch h) ?_
    exact fun h => hr eo h.1

/-- A BOE packet brings a new order exactly if it is one. -/
theorem boeOrder_eq_some {p : Wire.Mem} {no : Boe.NewOrder} :
    boeOrder p = some no ↔ BoeSession.request p = some (.enter no) := by
  unfold boeOrder
  split
  · rename_i no' hr
    rw [hr]
    constructor
    · intro h
      cases h
      rfl
    · intro h
      cases h
      rfl
  · rename_i hr
    exact iff_of_false (fun h => nomatch h) (hr no)

/-- An order packet in OUCH goes to `enter_order`. -/
theorem step_ouch_order {x : Simulator D W} {p : Wire.Mem} {eo : Ouch.EnterOrder}
    (h : x.ouchOrder p = some eo) :
    OuchSession.step (managed d E) (x.ouch.inEnv x.env) (.packet p) =
      OuchSession.enterOrder (managed d E) (x.ouch.inEnv x.env) eo := by
  obtain ⟨hr, hl, -⟩ := ouchOrder_eq_some.mp h
  rcases OuchSession.step_packet (managed d E) (x.ouch.inEnv x.env) p with
    ⟨hl' | hr', -⟩ | ⟨r, -, hr', hstep⟩
  · exact absurd (hl.symm.trans hl') Bool.noConfusion
  · exact nomatch hr.symm.trans hr'
  · obtain rfl : OuchSession.Request.enter eo = r := Option.some.inj (hr.symm.trans hr')
    exact hstep

/-- It consults the gate whatever the token. -/
theorem newOrders_ouch_order {x : Simulator D W} {p : Wire.Mem} {eo : Ouch.EnterOrder}
    (h : x.ouchOrder p = some eo) :
    newOrders (step d E x (.ouch (.packet p))) =
      units .newOrder (gate d E .newOrder x.env).2 := by
  obtain ⟨-, -, hstate, hqty⟩ := ouchOrder_eq_some.mp h
  show units .newOrder (OuchSession.step (managed d E) (x.ouch.inEnv x.env) (.packet p)).env = _
  rw [step_ouch_order h, OuchSession.keeps_enterOrder (keeps_units d E .newOrder),
    if_pos ⟨hqty, hstate⟩]
  rfl

/-- An OUCH order is accepted exactly if the gate is open and its token is new. -/
theorem accepted_ouch_order {x : Simulator D W} {p : Wire.Mem} {eo : Ouch.EnterOrder}
    (h : x.ouchOrder p = some eo) :
    Accepted d E x (.ouch (.packet p)) ↔
      (gate d E .newOrder x.env).1 = true ∧ x.duplicate (.ouch (.packet p)) = some false := by
  obtain ⟨-, -, hstate, hqty⟩ := ouchOrder_eq_some.mp h
  have hfresh : x.duplicate (.ouch (.packet p)) = some false ↔
      eo.token.str ∉ x.ouch.activeOrders ∧ eo.token.str ∉ x.ouch.finishedOrders := by
    dsimp only [duplicate]
    rw [h, Option.map_some, Option.some.injEq, decide_eq_false_iff_not, not_or]
  rw [hfresh]
  show (∃ m, (OuchSession.step (managed d E) (x.ouch.inEnv x.env)
    (.packet p)).pendingOutMessages = _) ↔ _
  rw [step_ouch_order h]
  rcases OuchSession.enterOrder_cases (managed d E) (x.ouch.inEnv x.env) eo with
    ⟨hnot, w, hs | ⟨m, hs⟩⟩ | ⟨hacc, w, o, m, -, -, hs⟩ <;> rw [hs]
  · refine iff_of_false ?_ fun hboth => hnot ⟨hqty, hstate, hboth⟩
    rintro ⟨m', hm'⟩
    exact List.cons_ne_nil _ _ (List.self_eq_append_right.mp hm')
  · refine iff_of_false ?_ fun hboth => hnot ⟨hqty, hstate, hboth⟩
    rintro ⟨m', hm'⟩
    exact nomatch (List.append_inj_right hm' rfl)
  · exact iff_of_true ⟨m, rfl⟩ hacc.2.2

/-- Other OUCH events take no unit of new orders. -/
theorem newOrders_ouch_other {x : Simulator D W} {e : OuchSession.Event}
    (h : x.duplicate (.ouch e) = none) : newOrders (step d E x (.ouch e)) = newOrders x := by
  have hkeeps := keeps_units d E .newOrder
  show units .newOrder (OuchSession.step (managed d E) (x.ouch.inEnv x.env) e).env =
    units .newOrder (x.ouch.inEnv x.env).env
  generalize hs : x.ouch.inEnv x.env = s
  cases e with
  | setLogger => rfl
  | disconnect => rfl
  | cancelAll => exact OuchSession.keeps_cancelAll hkeeps s
  | marketLogic =>
    show units .newOrder (OuchSession.marketLogic (managed d E) s).env = _
    unfold OuchSession.marketLogic
    rw [OuchSession.keeps_executionLogic hkeeps (by decide), OuchSession.keeps_replaceLogic hkeeps,
      OuchSession.keeps_modifyLogic hkeeps,
      OuchSession.keeps_cancelLogic hkeeps (by decide), OuchSession.keeps_heartbeatLogic hkeeps]
  | packet p =>
    rcases OuchSession.step_packet (managed d E) s p with ⟨-, hstep⟩ | ⟨r, hl, hr, hstep⟩ <;>
      rw [hstep]
    cases r with
    | login => exact OuchSession.keeps_handleLoginRequest hkeeps (by decide) s
    | logout => rfl
    | heartbeat => rfl
    | enter eo =>
      -- an order that is refused before the gate takes no unit
      have hnone : x.ouchOrder p = none := Option.map_eq_none_iff.mp h
      rw [OuchSession.handle, OuchSession.keeps_enterOrder hkeeps, if_neg]
      rintro ⟨hqty, hstate⟩
      subst hs
      cases hnone.symm.trans (ouchOrder_eq_some.mpr ⟨hr, hl, hstate, hqty⟩)
    | replace ro => exact OuchSession.keeps_replaceOrder hkeeps (by decide) s ro
    | cancel co => exact OuchSession.keeps_cancelOrder hkeeps (by decide) s co
    | modify mo => exact OuchSession.keeps_modifyOrder hkeeps (by decide) s mo

/-- An order packet in BOE goes to `enter_order`. -/
theorem step_boe_order (x : Simulator D W) {p : Wire.Mem} {no : Boe.NewOrder}
    (h : boeOrder p = some no) :
    BoeSession.step (managed d E) (x.boe.inEnv x.env) (.packet p) =
      BoeSession.enterOrder (managed d E) (x.boe.inEnv x.env) no := by
  have hr := boeOrder_eq_some.mp h
  rcases BoeSession.step_packet (managed d E) (x.boe.inEnv x.env) p with
    ⟨hr', -⟩ | ⟨r, hr', hstep⟩
  · exact nomatch hr.symm.trans hr'
  · obtain rfl : BoeSession.Request.enter no = r := Option.some.inj (hr.symm.trans hr')
    exact hstep

/-- A BOE order is a duplicate exactly if its token is active. -/
theorem duplicate_boe_order (x : Simulator D W) {p : Wire.Mem} {no : Boe.NewOrder}
    (h : boeOrder p = some no) :
    x.duplicate (.boe (.packet p)) = some (decide (no.token.str ∈ x.boe.activeOrders)) := by
  dsimp only [duplicate]
  rw [h, Option.map_some]

/-- It consults the gate for a fresh token only. -/
theorem newOrders_boe_order (x : Simulator D W) {p : Wire.Mem} {no : Boe.NewOrder}
    (h : boeOrder p = some no) :
    newOrders (step d E x (.boe (.packet p))) =
      if x.duplicate (.boe (.packet p)) = some true then newOrders x
      else units .newOrder (gate d E .newOrder x.env).2 := by
  show units .newOrder (BoeSession.step (managed d E) (x.boe.inEnv x.env) (.packet p)).env = _
  rw [step_boe_order x h, BoeSession.keeps_enterOrder (keeps_units d E .newOrder),
    duplicate_boe_order x h, Session.inEnv_activeOrders]
  by_cases hact : no.token.str ∈ x.boe.activeOrders
  · rw [if_pos hact, if_pos (congrArg some (decide_eq_true hact))]
    rfl
  · rw [if_neg hact, if_neg]
    · rfl
    · rw [decide_eq_false hact]
      exact fun hsome => nomatch hsome

/-- A BOE order is accepted exactly if the gate is open and its token is new. -/
theorem accepted_boe_order (x : Simulator D W) {p : Wire.Mem} {no : Boe.NewOrder}
    (h : boeOrder p = some no) :
    Accepted d E x (.boe (.packet p)) ↔
      (gate d E .newOrder x.env).1 = true ∧ x.duplicate (.boe (.packet p)) = some false := by
  rw [duplicate_boe_order x h, Option.some.injEq, decide_eq_false_iff_not, and_comm]
  show (∃ m, (BoeSession.step (managed d E) (x.boe.inEnv x.env)
    (.packet p)).pendingOutMessages = _) ↔ _
  rw [step_boe_order x h]
  rcases BoeSession.enterOrder_cases (managed d E) (x.boe.inEnv x.env) no with
    ⟨hnot, w, m, hs⟩ | ⟨hacc, w, o, m, -, -, -, hs⟩ <;> rw [hs]
  · refine iff_of_false ?_ hnot
    rintro ⟨m', hm'⟩
    exact nomatch (List.append_inj_right hm' rfl)
  · exact iff_of_true ⟨m, rfl⟩ hacc

/-- Other BOE events take no unit of new orders. -/
theorem newOrders_boe_other {x : Simulator D W} {e : BoeSession.Event}
    (h : x.duplicate (.boe e) = none) : newOrders (step d E x (.boe e)) = newOrders x := by
  have hkeeps := keeps_units d E .newOrder
  show units .newOrder (BoeSession.step (managed d E) (x.boe.inEnv x.env) e).env =
    units .newOrder (x.boe.inEnv x.env).env
  generalize x.boe.inEnv x.env = s
  cases e with
  | disconnect => rfl
  | cancelAll => exact BoeSession.keeps_cancelAll hkeeps s
  | marketLogic =>
    show units .newOrder (BoeSession.marketLogic (managed d E) s).env = _
    unfold BoeSession.marketLogic
    rw [BoeSession.keeps_executionLogic hkeeps (units_executionQty d E _) (by decide),
      BoeSession.keeps_modifyLogic hkeeps, BoeSession.keeps_cancelLogic hkeeps (by decide),
      BoeSession.keeps_heartbeatLogic hkeeps]
  | packet p =>
    rcases BoeSession.step_packet (managed d E) s p with ⟨-, hstep⟩ | ⟨r, hr, hstep⟩ <;>
      rw [hstep]
    cases r with
    | login req => exact BoeSession.keeps_handleLoginRequest hkeeps (by decide) s req
    | heartbeat => rfl
    | enter no =>
      have hnone : boeOrder p = none := Option.map_eq_none_iff.mp h
      exact nomatch hnone.symm.trans (boeOrder_eq_some.mpr hr)
    | cancel co => exact BoeSession.keeps_cancelOrder hkeeps (by decide) s co
    | modify mo => exact BoeSession.keeps_modifyOrder hkeeps (by decide) s mo

/-! ## Counting new orders -/

variable (d E)

/-- A simulator with the number of fresh tokens so far. -/
def countStep (y : Simulator D W × ℕ) (e : Event) : Simulator D W × ℕ :=
  (step d E y.1 e, y.2 + if y.1.duplicate e = some false then 1 else 0)

/-- The count beside the run is that of the fresh orders. -/
theorem run_countStep (x : Simulator D W) (c : ℕ) (es : List Event) :
    Machine.run (countStep d E) (x, c) es =
      (Machine.run (step d E) x es, c + freshCount d E x es) := by
  induction es generalizing x c with
  | nil => rfl
  | cons e es ih =>
    rw [Machine.run_cons, countStep, ih, Machine.run_cons, freshCount, Nat.add_assoc]

/-- While units are left, they are what `n` leaves behind the fresh tokens so far. -/
def CountsDown (n : ℤ) (y : Simulator D W × ℕ) : Prop :=
  newOrders y.1 = (.count, max 0 (n - y.2))

/-- An order packet is accepted if units are left and its token is fresh. It takes a unit, but for a
duplicate token in BOE. -/
theorem order_cases {x : Simulator D W} {k : ℤ} (hk : newOrders x = (.count, k)) {e : Event}
    {b : Bool} (hdup : x.duplicate e = some b) :
    (Accepted d E x e ↔ 0 < k ∧ b = false) ∧
      ((∃ e', e = .ouch e') ∨ b = false →
        newOrders (step d E x e) = (.count, if 0 < k then k - 1 else k)) ∧
      ((∃ e', e = .boe e') → b = true → newOrders (step d E x e) = newOrders x) := by
  obtain ⟨hgate, hunits⟩ := gate_count d E hk
  have hopen : (gate d E .newOrder x.env).1 = true ↔ 0 < k := by rw [hgate, decide_eq_true_eq]
  match e with
  | .ouch (.packet p) =>
    obtain ⟨eo, ho, -⟩ := Option.map_eq_some_iff.mp hdup
    rw [accepted_ouch_order ho, newOrders_ouch_order ho, hopen, hdup, Option.some.injEq]
    exact ⟨Iff.rfl, fun _ => hunits, fun hboe _ => nomatch hboe⟩
  | .boe (.packet p) =>
    obtain ⟨no, ho, -⟩ := Option.map_eq_some_iff.mp hdup
    have hstep := newOrders_boe_order (d := d) (E := E) x ho
    rw [accepted_boe_order x ho, hopen, hdup, Option.some.injEq]
    refine ⟨Iff.rfl, ?_, ?_⟩
    · rintro (⟨e', he'⟩ | rfl)
      · exact nomatch he'
      · rw [hstep, if_neg, hunits]
        exact fun hsome => nomatch hdup.symm.trans hsome
    · rintro - rfl
      rw [hstep, if_pos hdup]

/-- What any other event does. -/
theorem newOrders_other {x : Simulator D W} {e : Event} (he : e.isCommand = false)
    (hdup : x.duplicate e = none) : newOrders (step d E x e) = newOrders x := by
  cases e with
  | ouch e => exact newOrders_ouch_other hdup
  | boe e => exact newOrders_boe_other hdup
  | command c => exact nomatch he

/-- While the count goes down by fresh tokens alone, an event spares the units exactly when it is
accepted just while units are left, and, with a used token, neither is accepted nor takes a unit. -/
theorem counts_step {n : ℤ} {y : Simulator D W × ℕ} (hy : CountsDown n y) {e : Event} :
    ((y.1.duplicate e = some false → (Accepted d E y.1 e ↔ (y.2 : ℤ) < n)) ∧
        (y.1.duplicate e = some true →
          ¬ Accepted d E y.1 e ∧ newOrders (step d E y.1 e) = newOrders y.1)) ↔
      SparesUnits y.1 e := by
  have hfresh : (0 < max 0 (n - y.2) ↔ (y.2 : ℤ) < n) := by omega
  constructor
  · rintro ⟨-, hdup⟩
    match e with
    | .boe e => trivial
    | .command c => trivial
    | .ouch e =>
      -- a duplicate that takes no unit has found none
      intro h
      obtain ⟨-, htake, -⟩ := order_cases d E hy h
      have hsame := (hdup h).2
      rw [htake (.inl ⟨e, rfl⟩), hy, Prod.mk.injEq] at hsame
      rw [hy]
      show max 0 (n - y.2) ≤ 0
      by_contra hpos
      rw [if_pos (by omega)] at hsame
      omega
  · intro hspares
    refine ⟨fun h => ?_, fun h => ?_⟩
    · -- a fresh order
      rw [(order_cases d E hy h).1, and_iff_left rfl, hfresh]
    · -- a duplicate
      obtain ⟨haccepted, htake, hkeep⟩ := order_cases d E hy h
      refine ⟨fun hacc => Bool.noConfusion (haccepted.mp hacc).2, ?_⟩
      match e with
      | .boe e => exact hkeep ⟨e, rfl⟩ rfl
      | .ouch e =>
        have hnone : max 0 (n - y.2) ≤ 0 := by
          have hleft := hspares h
          rw [hy] at hleft
          exact hleft
        rw [htake (.inl ⟨e, rfl⟩), hy, if_neg (by omega)]

/-- An event that spares the units takes one for each fresh order and no more. -/
theorem countsDown_step {n : ℤ} {y : Simulator D W × ℕ} (hy : CountsDown n y) {e : Event}
    (he : e.isCommand = false) (hspares : SparesUnits y.1 e) :
    CountsDown n (countStep d E y e) := by
  unfold CountsDown countStep
  dsimp only
  rcases hdup : y.1.duplicate e with _ | _ | _
  · rw [newOrders_other d E he hdup, hy, if_neg (fun h => nomatch h), Nat.add_zero]
  · rw [(order_cases d E hy hdup).2.1 (.inr rfl), if_pos rfl]
    congr 1
    push_cast
    split
    · omega
    · omega
  · rw [((counts_step d E hy).mpr hspares).2 hdup |>.2, hy, if_neg (fun h => nomatch h),
      Nat.add_zero]

/-- **Counted new orders.** Behind `bm set count new_order n` exactly the first `n` orders with a fresh
token are accepted, and duplicates take no unit, exactly in the runs in which no OUCH order with a
duplicate token finds a unit left. -/
theorem counted_newOrders_iff (x : Simulator D W) {text : String} {n : ℤ} (htext : stoi text = some n)
    (hn : 0 ≤ n) {es : List Event} (hes : ∀ e ∈ es, e.isCommand = false) :
    let y := step d E x (.command (.set ["count", "new_order", text]))
    CountsNewOrders d E n y es ↔ Machine.Along (step d E) SparesUnits y es := by
  intro y
  have hy : newOrders y = (.count, n) := by
    have hneg : ¬ n < 0 := by omega
    show units .newOrder ((x.env.1.setCount ["count", "new_order", text]).1, x.env.2) = _
    dsimp only [setCount]
    rw [htext]
    dsimp only
    rw [if_neg hneg]
    show (Function.update x.env.1.behavior .newOrder .count .newOrder,
      Function.update x.env.1.times .newOrder n .newOrder) = _
    rw [Function.update_self, Function.update_self]
  have hstart : CountsDown n (y, 0) := by
    unfold CountsDown
    rw [hy, Nat.cast_zero, Int.sub_zero, max_eq_right hn]
  have hcommand : Machine.Along (countStep d E) (fun _ e => e.isCommand = false) (y, 0) es :=
    Machine.along_of_forall hes
  calc CountsNewOrders d E n y es
    _ ↔ Machine.Along (countStep d E) (fun z e =>
          (z.1.duplicate e = some false → (Accepted d E z.1 e ↔ (z.2 : ℤ) < n)) ∧
            (z.1.duplicate e = some true →
              ¬ Accepted d E z.1 e ∧ newOrders (step d E z.1 e) = newOrders z.1)) (y, 0) es := by
        rw [Machine.along_iff]
        refine forall_congr' fun pre => forall_congr' fun e => forall_congr' fun post => ?_
        rw [run_countStep, Nat.zero_add]
    _ ↔ Machine.Along (countStep d E) (fun z e => SparesUnits z.1 e) (y, 0) es :=
        Machine.along_congr (fun z e hz he hspares => countsDown_step d E hz he hspares)
          (fun z e hz _ => counts_step d E hz) hstart hcommand
    _ ↔ Machine.Along (step d E) SparesUnits y es :=
        Machine.along_map (g := Prod.fst) (I := fun _ => True) (D := fun _ _ => True)
          (fun _ _ _ _ => trivial) (fun _ _ _ _ => rfl) trivial
          (Machine.along_of_forall fun _ _ => trivial)

/-- A simulator whose OUCH client has logged in. -/
def ouchLoggedIn : Simulator Unit Unit :=
  Machine.run (step oneDouble quietEnv) (init oneDouble quietEnv ())
    (OuchSession.loggedIn.map .ouch)

/-- BOE duplicates take no unit: three orders, two of them fresh. -/
theorem counted_newOrders_boe :
    let y := step oneDouble quietEnv ouchLoggedIn (.command (.set ["count", "new_order", "2"]))
    CountsNewOrders oneDouble quietEnv 2 y
      [.boe (BoeSession.newPacket 'a' [100, 0, 0, 0]), .boe (BoeSession.newPacket 'a' [100, 0, 0, 0]),
        .ouch (OuchSession.enterPacket 'b' 100)] :=
  (counted_newOrders_iff oneDouble quietEnv ouchLoggedIn
    (show stoi "2" = some 2 by decide +kernel) (by decide) (by decide)).mpr (by decide +kernel)

/-- An OUCH duplicate takes a unit: of two units the second goes to the token that has already been
taken, and the second fresh token is rejected. -/
theorem not_counted_newOrders :
    ¬ ∀ (D W : Type) (d : Double D) (E : Env W) (x : Simulator D W) (text : String) (n : ℤ),
      stoi text = some n → 0 ≤ n → ∀ es : List Event, (∀ e ∈ es, e.isCommand = false) →
        CountsNewOrders d E n (step d E x (.command (.set ["count", "new_order", text]))) es := by
  intro h
  have hcounts := h Unit Unit oneDouble quietEnv ouchLoggedIn "2" 2 (by decide +kernel) (by decide)
    [.ouch (OuchSession.enterPacket 'a' 100), .ouch (OuchSession.enterPacket 'a' 100),
      .ouch (OuchSession.enterPacket 'b' 100)] (by decide)
    [.ouch (OuchSession.enterPacket 'a' 100), .ouch (OuchSession.enterPacket 'a' 100)]
    (.ouch (OuchSession.enterPacket 'b' 100)) [] rfl
  obtain ⟨m, hm⟩ := (hcounts.1 (by decide +kernel)).mpr (by decide +kernel)
  have hlast := congrArg (fun ms : List Ouch.OutMsg => ms.getLast?.map Ouch.OutMsg.kind) hm
  rw [List.getLast?_concat] at hlast
  have haccepted : _ = some Ouch.Kind.orderAccepted := hlast
  revert haccepted
  decide +kernel

end Simulator

end Evtsim
