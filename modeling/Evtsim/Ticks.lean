import Evtsim.Program

/-!
# Ticks and connections

Each server ticks by one timer, which it starts with a connection and stops with its end.
`single_tick_iff` says when there is one tick outstanding for a connection and none without: as long as
no connection ends while a tick is queued. Otherwise the queued tick runs without a connection, starts
the timer again, and what the session sends is written to the socket of no connection. `tickRate_le`
bounds the ticks of any run, and `written_to_connections` says what has been handed to `asio::write` for
each connection as long as no tick is queued when one ends. Whether the other end has received it is not
known here: the servers do not look at the error code that `asio::write` sets.
-/

namespace Evtsim

open TcpServer
open DeadlineTimer (Periodic)

/-- The messages that have been handed to `asio::write` for the `n`th connection. -/
def TcpServer.Server.writtenTo {σ M : Type} (s : Server σ M) (n : ℕ) : List M :=
  (s.written.filter fun p => p.1 = some n).map Prod.snd

/-- If a server has handed its messages to `asio::write` for a connection each, they are those of its
connections, one connection after the other. -/
theorem TcpServer.Server.messages_eq {σ M : Type} {ready : σ → Prop} {s : Server σ M}
    (h : s.Sound ready) (hopen : ∀ p ∈ s.written, p.1.isSome = true) :
    s.messages = (List.range s.connections).flatMap s.writtenTo := by
  obtain ⟨l, hl⟩ : ∃ l : List (ℕ × M), s.written = l.map fun p => (some p.1, p.2) := by
    refine ⟨s.written.map fun p => (p.1.getD 0, p.2), ?_⟩
    rw [List.map_map]
    refine (List.map_id _).symm.trans (List.map_congr_left fun p hp => ?_)
    obtain ⟨n, hn⟩ := Option.isSome_iff_exists.mp (hopen p hp)
    show p = (some (p.1.getD 0), p.2)
    rw [hn]
    exact Prod.ext hn rfl
  have htags : s.written.filterMap Prod.fst = l.map Prod.fst := by
    rw [hl, List.filterMap_map]
    exact congrFun (List.filterMap_eq_map (f := Prod.fst)) l
  have hwritten : ∀ n, s.writtenTo n = (l.filter fun p => p.1 = n).map Prod.snd := by
    intro n
    unfold writtenTo
    rw [hl, List.filter_map, List.map_map]
    refine congrArg (List.map Prod.snd) (List.filter_congr fun p _ => ?_)
    simp
  have hparts := Log.flatMap_tags (htags ▸ h.sorted) (n := s.connections) fun p hp =>
    h.below p.1 (htags ▸ List.mem_map_of_mem hp)
  have hmessages : s.messages = l.map Prod.snd := by
    unfold messages
    rw [hl, List.map_map]
    rfl
  rw [hmessages, ← congrArg (List.map Prod.snd) hparts, List.map_flatMap]
  exact List.flatMap_congr fun n _ => (hwritten n).symm

/-- The clock has not gone beyond `B`. -/
def TcpServer.Completion.Until (B : ℤ) : Completion → Prop
  | .elapse now => now ≤ B
  | _ => True

/-- A handler before a bound operates on its timer before it. -/
theorem TcpServer.Completion.Until.op {B : ℤ} {c : Completion} (h : c.Until B) :
    Periodic.Within B c.op := by
  cases c with
  | accept error => cases error <;> trivial
  | read r => cases r <;> trivial
  | elapse now => exact h
  | process error => cases error <;> trivial

namespace Program

variable {D W : Type} {d : Double D} {E : Env W}

/-! ## The timers in a run of the program -/

/-- The view `v` is a timer in periodic use, on which the handlers operate by `op`. -/
structure Timed (d : Double D) (E : Env W) (v : Program D W → Periodic) (op : Event → Periodic.Op) :
    Prop where
  step : ∀ x e, v (step d E x e) = Periodic.step tickPeriod (v x) (op e)
  enabled : ∀ {x e}, Sound x → Enabled x e → Periodic.Enabled (v x) (op e)

/-- What a handler does to the timer of the OUCH server. -/
def Event.ouchOp : Event → Periodic.Op
  | .ouch c => c.op
  | _ => .skip

/-- What a handler does to the timer of the BOE server. -/
def Event.boeOp : Event → Periodic.Op
  | .boe c => c.op
  | _ => .skip

/-- The timer of the OUCH server is in periodic use. -/
theorem timed_ouch : Timed d E (fun x => x.ouch.periodic) Event.ouchOp where
  step x e := by
    cases e with
    | ouch c => exact Server.periodic_step soupBin _ x.ouchServer c
    | _ => rfl
  enabled {x e} hx he := by
    cases e with
    | ouch c => exact Server.enabled_op hx.ouch he.2.2
    | _ => trivial

/-- The timer of the BOE server is in periodic use. -/
theorem timed_boe : Timed d E (fun x => x.boe.periodic) Event.boeOp where
  step x e := by
    cases e with
    | boe c => exact Server.periodic_step TcpServer.boe _ x.boeServer c
    | _ => rfl
  enabled {x e} hx he := by
    cases e with
    | boe c => exact Server.enabled_op hx.boe he.2.2
    | _ => trivial

section

variable {v : Program D W → Periodic} {op : Event → Periodic.Op} {x : Program D W} {es : List Event}

/-- A run of enabled handlers is one of enabled operations on each timer. -/
theorem Timed.along_enabled (hv : Timed d E v op) (hx : Sound x)
    (hes : Machine.Along (Program.step d E) Enabled x es) :
    Machine.Along (Periodic.step tickPeriod) Periodic.Enabled (v x) (es.map op) := by
  have hops : Machine.Along (Program.step d E) (fun x e => Periodic.Enabled (v x) (op e)) x es :=
    along_sound (fun hx he => hv.enabled hx he) hx hes
  exact (Machine.along_reading hv.step).mp hops

/-- A timer has one tick along a run exactly if it is never stopped while one is queued. -/
theorem Timed.single_iff (hv : Timed d E v op) (hx : Sound x) (hsingle : (v x).Single)
    (hes : Machine.Along (Program.step d E) Enabled x es) :
    Machine.Throughout (Program.step d E) (fun x => (v x).Single) x es ↔
      Machine.Along (Program.step d E) (fun x e => ¬ (v x).Stray (op e)) x es := by
  rw [Machine.throughout_reading (P := Periodic.Single) hv.step,
    Periodic.throughout_single_iff hsingle (hv.along_enabled hx hes)]
  exact (Machine.along_reading (C := fun p o => ¬ p.Stray o) hv.step).symm

end

/-! ## One tick for a connection -/

/-- The connection to the OUCH client ends while a tick is queued. -/
def StrayOuch (x : Program D W) : Event → Prop
  | .ouch c => x.ouch.Stray c
  | _ => False

/-- The connection to the BOE member ends while a tick is queued. -/
def StrayBoe (x : Program D W) : Event → Prop
  | .boe c => x.boe.Stray c
  | _ => False

instance (x : Program D W) : ∀ e, Decidable (StrayOuch x e)
  | .ouch c => inferInstanceAs (Decidable (x.ouch.Stray c))
  | .boe _ => isFalse id
  | .command _ => isFalse id
  | .cancelAll => isFalse id

instance (x : Program D W) : ∀ e, Decidable (StrayBoe x e)
  | .boe c => inferInstanceAs (Decidable (x.boe.Stray c))
  | .ouch _ => isFalse id
  | .command _ => isFalse id
  | .cancelAll => isFalse id

/-- An OUCH connection ends while a tick is queued exactly if the timer is stopped then. -/
theorem strayOuch_iff {x : Program D W} {e : Event} :
    StrayOuch x e ↔ Periodic.Stray x.ouch.periodic e.ouchOp := by
  cases e with
  | ouch c => exact Server.stray_iff
  | _ => exact ⟨fun h => absurd h id, fun h => nomatch h.1⟩

/-- A BOE connection ends while a tick is queued exactly if the timer is stopped then. -/
theorem strayBoe_iff {x : Program D W} {e : Event} :
    StrayBoe x e ↔ Periodic.Stray x.boe.periodic e.boeOp := by
  cases e with
  | boe c => exact Server.stray_iff
  | _ => exact ⟨fun h => absurd h id, fun h => nomatch h.1⟩

/-- **One tick for a connection.** Throughout a run of the program the ticks that a server has
outstanding are one while there is a connection and none otherwise exactly when no connection of it ends
while a tick is queued. -/
theorem single_tick_iff {w : W} {ouchStart boeStart : ℤ} {es : List Event}
    (hes : Machine.Along (step d E) Enabled (init d E w ouchStart boeStart) es) :
    (Machine.Throughout (step d E)
        (fun x => x.ouch.timer.outstanding = x.ouch.connection.isSome.toNat)
        (init d E w ouchStart boeStart) es ↔
      Machine.Along (step d E) (fun x e => ¬ StrayOuch x e) (init d E w ouchStart boeStart) es) ∧
    (Machine.Throughout (step d E)
        (fun x => x.boe.timer.outstanding = x.boe.connection.isSome.toNat)
        (init d E w ouchStart boeStart) es ↔
      Machine.Along (step d E) (fun x e => ¬ StrayBoe x e) (init d E w ouchStart boeStart) es) := by
  have hsound := sound_init (d := d) (E := E) w ouchStart boeStart
  have houch := timed_ouch.single_iff hsound rfl hes
  have hboe := timed_boe.single_iff hsound rfl hes
  simp only [strayOuch_iff, strayBoe_iff]
  exact ⟨houch, hboe⟩

/-- The ticks of the served run. -/
theorem single_tick_iff_served :
    (Machine.Throughout (step oneDouble quietEnv)
        (fun x => x.ouch.timer.outstanding = x.ouch.connection.isSome.toNat)
        (init oneDouble quietEnv () 0 0) served ↔
      Machine.Along (step oneDouble quietEnv) (fun x e => ¬ StrayOuch x e)
        (init oneDouble quietEnv () 0 0) served) ∧
    (Machine.Throughout (step oneDouble quietEnv)
        (fun x => x.boe.timer.outstanding = x.boe.connection.isSome.toNat)
        (init oneDouble quietEnv () 0 0) served ↔
      Machine.Along (step oneDouble quietEnv) (fun x e => ¬ StrayBoe x e)
        (init oneDouble quietEnv () 0 0) served) :=
  single_tick_iff enabled_served

/-! ## The rate of the ticks -/

/-- The ticks of the OUCH server in a run. -/
def ouchTicks (es : List Event) : ℕ := Periodic.ticks (es.map Event.ouchOp)

/-- The ends of connections to the OUCH client that find a tick queued. -/
def ouchStrays (d : Double D) (E : Env W) (x : Program D W) : List Event → ℕ
  | [] => 0
  | e :: es => (if StrayOuch x e then 1 else 0) + ouchStrays d E (step d E x e) es

def boeTicks (es : List Event) : ℕ := Periodic.ticks (es.map Event.boeOp)

def boeStrays (d : Double D) (E : Env W) (x : Program D W) : List Event → ℕ
  | [] => 0
  | e :: es => (if StrayBoe x e then 1 else 0) + boeStrays d E (step d E x e) es

/-- The OUCH connections that end while a tick is queued are the stops of the timer then. -/
theorem ouchStrays_eq (x : Program D W) (es : List Event) :
    ouchStrays d E x es = Periodic.strays tickPeriod x.ouch.periodic (es.map Event.ouchOp) := by
  induction es generalizing x with
  | nil => rfl
  | cons e es ih =>
    rw [ouchStrays, List.map_cons, Periodic.strays, ih, timed_ouch.step]
    simp only [strayOuch_iff]

/-- The BOE connections that end while a tick is queued are the stops of the timer then. -/
theorem boeStrays_eq (x : Program D W) (es : List Event) :
    boeStrays d E x es = Periodic.strays tickPeriod x.boe.periodic (es.map Event.boeOp) := by
  induction es generalizing x with
  | nil => rfl
  | cons e es ih =>
    rw [boeStrays, List.map_cons, Periodic.strays, ih, timed_boe.step]
    simp only [strayBoe_iff]

/-- The clock has not gone beyond `B`. -/
def Until (B : ℤ) : Event → Prop
  | .ouch c => c.Until B
  | .boe c => c.Until B
  | _ => True

/-- **Tick rate.** In a run of the program up to the time `B` a server has ticked at most once in 333
milliseconds since its start, and once more for each connection that has ended with a tick queued. -/
theorem tickRate_le {w : W} {ouchStart boeStart B : ℤ} {es : List Event}
    (hes : Machine.Along (step d E) Enabled (init d E w ouchStart boeStart) es)
    (hB : ∀ e ∈ es, Until B e) (houch : ouchStart ≤ B) (hboe : boeStart ≤ B) :
    333 * (ouchTicks es : ℤ) ≤
        B - ouchStart + 333 * ouchStrays d E (init d E w ouchStart boeStart) es ∧
      333 * (boeTicks es : ℤ) ≤
        B - boeStart + 333 * boeStrays d E (init d E w ouchStart boeStart) es := by
  have hsound := sound_init (d := d) (E := E) w ouchStart boeStart
  rw [ouchStrays_eq, boeStrays_eq]
  constructor
  · refine Periodic.ticks_le tickPeriod (by decide) houch
      (timed_ouch.along_enabled hsound hes) fun o ho => ?_
    obtain ⟨e, he, rfl⟩ := List.mem_map.mp ho
    have huntil := hB e he
    cases e with
    | ouch c => exact huntil.op
    | _ => trivial
  · refine Periodic.ticks_le tickPeriod (by decide) hboe
      (timed_boe.along_enabled hsound hes) fun o ho => ?_
    obtain ⟨e, he, rfl⟩ := List.mem_map.mp ho
    have huntil := hB e he
    cases e with
    | boe c => exact huntil.op
    | _ => trivial

/-- The ticks of the served run do not come too fast. -/
theorem tickRate_le_served :
    333 * (ouchTicks served : ℤ) ≤
        400 - 0 + 333 * ouchStrays oneDouble quietEnv (init oneDouble quietEnv () 0 0) served ∧
      333 * (boeTicks served : ℤ) ≤
        400 - 0 + 333 * boeStrays oneDouble quietEnv (init oneDouble quietEnv () 0 0) served :=
  tickRate_le enabled_served (by simp [served, Until, Completion.Until]) (by decide) (by decide)

/-! ## What is written to a connection -/

/-- No connection of either server ends while a tick is queued. -/
def NoStray (x : Program D W) (e : Event) : Prop := ¬ StrayOuch x e ∧ ¬ StrayBoe x e

instance (x : Program D W) (e : Event) : Decidable (NoStray x e) := instDecidableAnd

/-- Both servers are sound, have one tick for a connection, and have written to connections only. -/
structure Delivering (x : Program D W) : Prop where
  sound : Sound x
  ouch : x.ouch.periodic.Single
  boe : x.boe.periodic.Single
  ouchOpen : ∀ p ∈ x.ouch.written, p.1.isSome = true
  boeOpen : ∀ p ∈ x.boe.written, p.1.isSome = true

/-- What is added goes to a connection like what was written before. -/
theorem forall_written {M : Type} {l l' : List (Option ℕ × M)} {n : Option ℕ}
    (h : ∃ ms : List M, l' = l ++ ms.map (n, ·) ∧ (ms ≠ [] → n.isSome = true))
    (hl : ∀ p ∈ l, p.1.isSome = true) : ∀ p ∈ l', p.1.isSome = true := by
  obtain ⟨ms, rfl, hms⟩ := h
  refine List.forall_mem_append.mpr ⟨hl, fun p hp => ?_⟩
  obtain ⟨m, hm, rfl⟩ := List.mem_map.mp hp
  exact hms (List.ne_nil_of_mem hm)

/-- An operation other than a stop while a tick is queued leaves one tick. -/
theorem single_step {p : Periodic} {o : Periodic.Op} (h : p.Single) (ho : Periodic.Enabled p o)
    (hstray : ¬ p.Stray o) : (Periodic.step tickPeriod p o).Single := by
  have hout := Periodic.outstanding_step tickPeriod (k := 0) ⟨h.ge, h.le⟩ ho
  rw [if_neg hstray] at hout
  exact Nat.le_antisymm hout.2 hout.1

/-- A handler that leaves no tick queued behind its connection writes to connections only. -/
theorem Delivering.step {x : Program D W} {e : Event} (h : Delivering x) (he : Completes x e)
    (hstray : NoStray x e) : Delivering (Program.step d E x e) := by
  have houch : (Program.step d E x e).ouch.periodic.Single := by
    rw [timed_ouch.step]
    exact single_step h.ouch (timed_ouch.enabled (d := d) (E := E) h.sound he.1)
      (strayOuch_iff.not.mp hstray.1)
  have hboe : (Program.step d E x e).boe.periodic.Single := by
    rw [timed_boe.step]
    exact single_step h.boe (timed_boe.enabled (d := d) (E := E) h.sound he.1)
      (strayBoe_iff.not.mp hstray.2)
  refine ⟨h.sound.step he, houch, hboe, ?_, ?_⟩
  · cases e with
    | ouch c => exact forall_written (Server.written_step h.sound.ouchServer he.1.2.2 h.ouch) h.ouchOpen
    | _ => exact h.ouchOpen
  · cases e with
    | boe c => exact forall_written (Server.written_step h.sound.boeServer he.1.2.2 h.boe) h.boeOpen
    | _ => exact h.boeOpen

/-- Without such an end every message that has been written has been written for a connection. -/
theorem messages_written {w : W} {ouchStart boeStart : ℤ} {es : List Event}
    (hes : Machine.Along (step d E) Completes (init d E w ouchStart boeStart) es)
    (hstray : Machine.Along (step d E) NoStray (init d E w ouchStart boeStart) es) :
    let x := Machine.run (step d E) (init d E w ouchStart boeStart) es
    x.ouch.messages = (List.range x.ouch.connections).flatMap x.ouch.writtenTo ∧
      x.boe.messages = (List.range x.boe.connections).flatMap x.boe.writtenTo := by
  have hinit : Delivering (init d E w ouchStart boeStart) :=
    ⟨sound_init w ouchStart boeStart, rfl, rfl, List.forall_mem_nil _, List.forall_mem_nil _⟩
  have hend := Machine.run_of_along (f := step d E) (fun _ _ h he => h.step he.1 he.2) hinit
    (hes.and hstray)
  exact ⟨Server.messages_eq hend.sound.ouch hend.ouchOpen,
    Server.messages_eq hend.sound.boe hend.boeOpen⟩

/-- **What is written.** In a run of the program in which no connection ends while a tick is queued, the
messages of each session are what has been handed to `asio::write` for its connections, one connection
after the other, and behind that what is pending. -/
theorem written_to_connections {w : W} {ouchStart boeStart : ℤ} {es : List Event}
    (hes : Machine.Along (step d E) Completes (init d E w ouchStart boeStart) es)
    (hstray : Machine.Along (step d E) NoStray (init d E w ouchStart boeStart) es) :
    let x := Machine.run (step d E) (init d E w ouchStart boeStart) es
    let y := Machine.run (Simulator.step d E) (Simulator.init d E w) (es.flatMap Event.sessions)
    y.ouch.pendingOutMessages =
        (List.range x.ouch.connections).flatMap x.ouch.writtenTo ++ x.ouch.market.pendingOutMessages ∧
      y.boe.pendingOutMessages =
        (List.range x.boe.connections).flatMap x.boe.writtenTo ++ x.boe.market.pendingOutMessages := by
  intro x y
  obtain ⟨houch, hboe⟩ := messages_written hes hstray
  have hsame : y.refresh = x.simulator := simulator_refresh hes
  rw [← houch, ← hboe]
  exact ⟨congrArg (fun y : Simulator D W => y.ouch.pendingOutMessages) hsame,
    congrArg (fun y : Simulator D W => y.boe.pendingOutMessages) hsame⟩

theorem written_to_connections_served :
    let x := Machine.run (step oneDouble quietEnv) (init oneDouble quietEnv () 0 0) served
    let y := Machine.run (Simulator.step oneDouble quietEnv) (Simulator.init oneDouble quietEnv ())
      (served.flatMap Event.sessions)
    y.ouch.pendingOutMessages =
        (List.range x.ouch.connections).flatMap x.ouch.writtenTo ++ x.ouch.market.pendingOutMessages ∧
      y.boe.pendingOutMessages =
        (List.range x.boe.connections).flatMap x.boe.writtenTo ++ x.boe.market.pendingOutMessages :=
  written_to_connections completes_served (by decide +kernel)

end Program

end Evtsim
