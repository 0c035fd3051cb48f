import Evtsim.Order

/-!
# What a session asks of its surroundings

A session calls the behaviour manager, the clocks and `rand()`, builds structs in memory that it does
not initialise, and walks over unordered maps. `Env W` collects these calls: each reads a state `W` of
the surroundings and leaves a new one, and a session carries that state along. Nothing is assumed of
the answers, so a theorem for every `Env` holds for every behaviour-gate, clock, random and memory
value; the one thing promised is that a walk over a map meets each of its keys once (`visit`).
-/

namespace Evtsim

open Wire

/-- `SessionState` (`session.h`) -/
inductive SessionState
  | notLoggedIn | loggedIn
deriving DecidableEq

/-- The gates of `BehaviorManager`. -/
inductive Gate
  | login | logout | newOrder | modifyOrder | replaceOrder | cancelOrder | execution
deriving DecidableEq

structure Env (W : Type) where
  /-- `BehaviorManager::login()`, `new_order()`, ... -/
  gate : Gate → W → Bool × W
  /-- `BehaviorManager::execution_qty()` -/
  executionQty : W → ℤ × W
  /-- `time(NULL)` -/
  time : W → ℤ × W
  /-- `clock()` -/
  clock : W → ℤ × W
  /-- Nanoseconds since the epoch of the `chrono` clock that a timestamp reads. -/
  now : W → ℤ × W
  /-- `rand()` -/
  rand : W → ℕ × W
  /-- The start of the local day of a time, by `localtime_r` and `mktime`. -/
  midnight : ℤ → ℤ
  /-- The memory that a message struct is built in. -/
  raw : W → Mem × W
  /-- The memory that an OUCH order is built in, read as an order. -/
  rawOuchOrder : W → OuchOrder × W
  /-- The memory that a BOE order is built in, read as an order. -/
  rawBoeOrder : W → BoeOrder × W
  /-- The order in which a walk over a map meets its keys. -/
  visit : (ks : List Key) → W → { l : List Key // l.Perm ks } × W

variable {W : Type}

/-- A walk over an empty map meets nothing. -/
theorem Env.visit_empty (E : Env W) {ks : List Key} (h : ks = []) (w : W) :
    (E.visit ks w).1.val = [] := by
  have hperm := (E.visit ks w).1.property
  exact List.perm_nil.mp (h ▸ hperm)

/-- `rand() * rand()` as `uint64_t`: a product of `int`s, sign-extended. -/
def orderNumber (a b : ℕ) : UInt64 := UInt64.ofInt (Int32.ofInt (a * b)).toInt

/-- `Ouch_Order::Ouch_Order()`: the base class sets the arrival time and the order number, every other
field is what the memory held. -/
def Env.ouchOrder (E : Env W) (w : W) : OuchOrder × W :=
  let raw := E.rawOuchOrder w
  let t := E.time raw.2
  let a := E.rand t.2
  let b := E.rand a.2
  ({ raw.1 with recvOrderTime := t.1, orderID := orderNumber a.1 b.1 }, b.2)

/-- `Boe_Order::Boe_Order()`, likewise. -/
def Env.boeOrder (E : Env W) (w : W) : BoeOrder × W :=
  let raw := E.rawBoeOrder w
  let t := E.time raw.2
  let a := E.rand t.2
  let b := E.rand a.2
  ({ raw.1 with recvOrderTime := t.1, orderID := orderNumber a.1 b.1 }, b.2)

/-- The classes of `time_in_force` that `expired` does not count down. -/
def OuchOrder.countsDown (o : OuchOrder) : Bool :=
  o.timeInForce != Ouch.TimeInForce.ioc && o.timeInForce != Ouch.TimeInForce.market &&
    o.timeInForce != Ouch.TimeInForce.system

/-- The order after `expired` has read the clock: a 64-bit difference cut to `int32_t`. -/
def OuchOrder.countDown (o : OuchOrder) (currTime : ℤ) : OuchOrder :=
  { o with
    remainTimeInForce :=
      Int32.ofInt ((o.timeInForce.toNat : ℤ) - (currTime - o.recvOrderTime)) }

/-- `Ouch_Order::expired`: the answer, the order it rewrites, and the surroundings. -/
def OuchOrder.expired (E : Env W) (o : OuchOrder) (w : W) : Bool × OuchOrder × W :=
  if o.countsDown then
    let t := E.time w
    let o := o.countDown t.1
    (o.remainTimeInForce ≤ 0, o, t.2)
  else (o.remainTimeInForce ≤ 0, o, w)

/-- `Ouch_Order::still_active`; `expired` is called on an order with something remaining only. -/
def OuchOrder.stillActive (E : Env W) (o : OuchOrder) (w : W) : Bool × OuchOrder × W :=
  if o.remainingQty ≤ 0 then (false, { o with state := .dead }, w)
  else
    let ex := o.expired E w
    if ex.1 || ex.2.1.state = .dead then (false, { ex.2.1 with state := .dead }, ex.2.2)
    else (true, ex.2.1, ex.2.2)

/-- `expired` rewrites the countdown and nothing else. -/
theorem OuchOrder.expired_order (E : Env W) (o : OuchOrder) (w : W) :
    ∃ r, (o.expired E w).2.1 = { o with remainTimeInForce := r } := by
  unfold OuchOrder.expired
  split
  · exact ⟨_, rfl⟩
  · exact ⟨o.remainTimeInForce, rfl⟩

/-- `still_active` rewrites the countdown and the state and nothing else, and calls an order active
only if something remains. -/
theorem OuchOrder.stillActive_order (E : Env W) (o : OuchOrder) (w : W) :
    ∃ r st, (o.stillActive E w).2.1 = { o with remainTimeInForce := r, state := st } := by
  obtain ⟨r, hr⟩ := o.expired_order E w
  unfold OuchOrder.stillActive
  split
  · exact ⟨o.remainTimeInForce, .dead, rfl⟩
  · simp only [hr]
    split
    · exact ⟨r, .dead, rfl⟩
    · exact ⟨r, o.state, rfl⟩

/-- An order that is still active has shares left. -/
theorem OuchOrder.remainingQty_pos_of_stillActive {E : Env W} {o : OuchOrder} {w : W}
    (h : (o.stillActive E w).1 = true) : 0 < o.remainingQty := by
  unfold OuchOrder.stillActive at h
  split at h
  · cases h
  · omega

/-! ## A quiet environment

The default behaviours, stopped clocks, `rand()` always 0, zeroed memory, and maps walked in the order
in which they are stored. -/

/-- An order in zeroed memory. -/
def zeroOrder : Order :=
  { recvOrderTime := 0, remainingQty := 0, orderID := 0, executedQty := 0, symbol := fun _ => 0
    side := 0, firm := fun _ => 0, capacity := 0, display := 0, remainTimeInForce := 0, minQty := 0 }

def zeroOuchOrder : OuchOrder :=
  { zeroOrder with
    timeInForce := 0, intermarketSweepEligibility := 0, price := 0, crossType := 0
    token := ⟨fun _ => 0⟩, state := .live }

def zeroBoeOrder : BoeOrder :=
  { zeroOrder with timeInForce := 0, token := ⟨fun _ => 0⟩, price := 0 }

def quietEnv : Env Unit :=
  { gate := fun _ w => (true, w)
    executionQty := fun w => (-1, w)
    time := fun w => (0, w)
    clock := fun w => (0, w)
    now := fun w => (0, w)
    rand := fun w => (0, w)
    midnight := fun t => t
    raw := fun w => (fun _ => 0, w)
    rawOuchOrder := fun w => (zeroOuchOrder, w)
    rawBoeOrder := fun w => (zeroBoeOrder, w)
    visit := fun ks w => (⟨ks, List.Perm.refl ks⟩, w) }

end Evtsim
