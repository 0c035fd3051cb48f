import Evtsim.Simulator
import Evtsim.Server
import Evtsim.CancelAll
import Evtsim.Ouch.Login
import Evtsim.Boe.Login

/-!
# The program (`evtsim_main.cpp`)

A behaviour manager and a server of each protocol, started one after the other and run by one
`io_service`: at each time one handler runs, of either server or of the admin console. `Program.step`
is such a handler, and `refines_simulator` follows the two sessions through a run: up to what has been
written and is no longer pending they are those of `Simulator`.
-/

namespace Evtsim

open Wire TcpServer Session

/-! ## The sessions behind a server -/

/-- No call of an OUCH session depends on what is pending. -/
theorem OuchSession.outbox {W : Type} (E : Env W) :
    Outbox (OuchSession.marketClass E) Session.behind where
  cleared _ := rfl
  setLogger _ := rfl
  disconnect _ := rfl
  clear ms s := behind_clearOut ms s
  call ms s c := by
    cases c with
    | setLogger => rfl
    | disconnect => rfl
    | marketLogic => exact congrArg Except.ok (marketLogic_behind E ms s)
    | packet p len =>
      show handlePacket E (s.behind ms) p = (handlePacket E s p).map (Session.behind ms)
      rcases hl : s.l with _ | _
      · rw [handlePacket_noLogger E hl, handlePacket_noLogger E (s := s.behind ms) hl]
        rfl
      · rw [handlePacket_behind E ms hl, handlePacket_eq E hl]
        rfl

/-- An OUCH session handles packets once its logger is set. -/
theorem OuchSession.ready {W : Type} (E : Env W) :
    Ready (OuchSession.marketClass E) fun s => s.l = true where
  setLogger _ := rfl
  handlePacket s p _ hl := by
    refine ⟨respond E s (request p), handlePacket_eq E hl p, ?_⟩
    rcases request p with _ | r
    · exact hl
    · exact (handle_login E s r).1.trans hl
  marketLogic s hl := (marketLogic_login E s).2.trans hl
  clear _ hl := hl

/-- `cancel_all` counts the messages that it leaves, which cancel orders. -/
theorem OuchSession.cancelAll_out {W : Type} (E : Env W) (s : OuchSession W) :
    ∃ ms, (cancelAll E s).1.pendingOutMessages = s.pendingOutMessages ++ ms ∧
      (cancelAll E s).2 = ms.length ∧ ∀ m ∈ ms, m.kind = .orderCanceled := by
  have hcount := Log.count_run (g := fun st : OuchSession W × ℕ => st.1.pendingOutMessages)
    (c := Prod.snd) (emits_cancelAllStep E) (count_cancelAllStep E)
    (s.inEnv (E.visit s.activeOrders.keys s.env).2, 0) (E.visit s.activeOrders.keys s.env).1.val
  obtain ⟨ms, hms, hkinds⟩ := emits_cancelAll E s
  refine ⟨ms, hms, (hcount.trans (Nat.zero_add _)).trans ?_,
    fun m hm => List.mem_singleton.mp (hkinds m hm)⟩
  exact congrArg List.length ((congrArg (Log.added s.pendingOutMessages) hms).trans
    (Log.added_append _ _))

/-- A BOE session sends behind what waits already. -/
theorem BoeSession.outbox {W : Type} (E : Env W) :
    Outbox (BoeSession.marketClass E) Session.behind where
  cleared _ := rfl
  setLogger _ := rfl
  disconnect _ := rfl
  clear ms s := behind_clearOut ms s
  call ms s c := by
    cases c with
    | setLogger => rfl
    | disconnect => rfl
    | marketLogic => exact congrArg Except.ok (marketLogic_behind E ms s)
    | packet p len => exact congrArg Except.ok (handlePacket_behind E ms s p)

/-- `cancel_all` counts the cancellations that it sends. -/
theorem BoeSession.cancelAll_out {W : Type} (E : Env W) (s : BoeSession W) :
    ∃ ms, (cancelAll E s).1.pendingOutMessages = s.pendingOutMessages ++ ms ∧
      (cancelAll E s).2 = ms.length ∧ ∀ m ∈ ms, m.type = .orderCanceled := by
  have hcount := Log.count_run (g := fun st : BoeSession W × ℕ => st.1.pendingOutMessages)
    (c := Prod.snd) (emits_cancelAllStep E) (count_cancelAllStep E)
    (s.inEnv (E.visit s.activeOrders.keys s.env).2, 0) (E.visit s.activeOrders.keys s.env).1.val
  obtain ⟨ms, hms, hkinds⟩ := emits_cancelAll E s
  refine ⟨ms, hms, (hcount.trans (Nat.zero_add _)).trans ?_,
    fun m hm => List.mem_singleton.mp (hkinds m hm)⟩
  exact congrArg List.length ((congrArg (Log.added s.pendingOutMessages) hms).trans
    (Log.added_append _ _))

/-- A BOE session handles packets from its start. -/
theorem BoeSession.ready {W : Type} (E : Env W) : Ready (BoeSession.marketClass E) fun _ => True where
  setLogger _ := trivial
  handlePacket s p _ _ := ⟨handlePacket E s p, rfl, trivial⟩
  marketLogic _ _ := trivial
  clear _ _ := trivial

/-! ## The program -/

variable {D W : Type} (d : Double D) (E : Env W)

/-- The state of the program; each session carries the surroundings as it last left them. -/
structure Program (D W : Type) where
  env : BehaviorManager D × W
  ouch : Server (OuchSession (BehaviorManager D × W)) Ouch.OutMsg
  boe : Server (BoeSession (BehaviorManager D × W)) Boe.OutMsg

namespace Program

/-- What can happen to the program. -/
inductive Event
  | ouch (c : Completion)
  | boe (c : Completion)
  | command (c : BehaviorManager.Command)
  | cancelAll

/-- `main`: a manager, and a server of either protocol started at its time. -/
def init (w : W) (ouchStart boeStart : ℤ) : Program D W :=
  let x : Simulator D W := Simulator.init d E w
  { env := x.env, ouch := .new x.ouch ouchStart, boe := .new x.boe boeStart }

/-- A server whose session finds the surroundings as they are. -/
def ouchServer (x : Program D W) : Server (OuchSession (BehaviorManager D × W)) Ouch.OutMsg :=
  { x.ouch with market := x.ouch.market.inEnv x.env }

def boeServer (x : Program D W) : Server (BoeSession (BehaviorManager D × W)) Boe.OutMsg :=
  { x.boe with market := x.boe.market.inEnv x.env }

/-- `bm cancel_all`: the functions that the sessions have registered, OUCH first. -/
def cancelAll (x : Program D W) : Program D W × ℕ × ℕ :=
  let a := OuchSession.cancelAll (managed d E) x.ouchServer.market
  let b := BoeSession.cancelAll (managed d E) (x.boe.market.inEnv a.1.env)
  ({ env := b.1.env, ouch := { x.ouch with market := a.1 }, boe := { x.boe with market := b.1 } },
    a.2, b.2)

/-- One handler. -/
def step (x : Program D W) : Event → Program D W
  | .ouch c =>
    let s := Server.step soupBin (OuchSession.marketClass (managed d E)) x.ouchServer c
    { x with env := s.market.env, ouch := s }
  | .boe c =>
    let s := Server.step TcpServer.boe (BoeSession.marketClass (managed d E)) x.boeServer c
    { x with env := s.market.env, boe := s }
  | .command c => { x with env := ((x.env.1.command d c).1, x.env.2) }
  | .cancelAll => (cancelAll d E x).1

/-- Whether a handler can be the next to run: none once the program has ended. -/
def Enabled (x : Program D W) (e : Event) : Prop :=
  x.ouch.ended = none ∧ x.boe.ended = none ∧
    match e with
    | .ouch c => x.ouch.Enabled c
    | .boe c => x.boe.Enabled c
    | .command _ => True
    | .cancelAll => True

instance (x : Program D W) : ∀ e, Decidable (Enabled x e)
  | .ouch c => inferInstanceAs (Decidable (_ ∧ _ ∧ x.ouch.Enabled c))
  | .boe c => inferInstanceAs (Decidable (_ ∧ _ ∧ x.boe.Enabled c))
  | .command _ => inferInstanceAs (Decidable (_ ∧ _ ∧ True))
  | .cancelAll => inferInstanceAs (Decidable (_ ∧ _ ∧ True))

/-- The log calls of a handler stay in their buffers. -/
def Event.Logs : Event → Prop
  | .ouch c => c.Logs soupBin
  | .boe c => c.Logs TcpServer.boe
  | .command _ => True
  | .cancelAll => True

instance : DecidablePred Event.Logs
  | .ouch c => inferInstanceAs (Decidable (c.Logs soupBin))
  | .boe c => inferInstanceAs (Decidable (c.Logs TcpServer.boe))
  | .command _ => isTrue trivial
  | .cancelAll => isTrue trivial

/-- A handler that can be the next to run, and returns. -/
def Completes (x : Program D W) (e : Event) : Prop := Enabled x e ∧ e.Logs

instance (x : Program D W) (e : Event) : Decidable (Completes x e) := instDecidableAnd

variable {d E}

/-! ## What holds of every run -/

/-- Both servers are sound. -/
structure Sound (x : Program D W) : Prop where
  ouch : Server.Sound (fun s => s.l = true) x.ouch
  boe : Server.Sound (fun _ => True) x.boe

/-- The new program is sound. -/
theorem sound_init (w : W) (ouchStart boeStart : ℤ) : Sound (init d E w ouchStart boeStart) :=
  ⟨Server.sound_new _ _, Server.sound_new _ _⟩

/-- The surroundings of a session play no part. -/
theorem Sound.ouchServer {x : Program D W} (h : Sound x) :
    Server.Sound (fun s => s.l = true) x.ouchServer := by
  obtain ⟨h1, h2, h3, h4, h5, h6, h7⟩ := h.ouch
  exact ⟨h1, h2, h3, h4, h5, h6, h7⟩

/-- The surroundings of a session play no part. -/
theorem Sound.boeServer {x : Program D W} (h : Sound x) :
    Server.Sound (fun _ => True) x.boeServer := by
  obtain ⟨h1, h2, h3, h4, h5, h6, h7⟩ := h.boe
  exact ⟨h1, h2, h3, h4, h5, h6, h7⟩

/-- What every handler keeps that returns. -/
theorem Sound.step {x : Program D W} {e : Event} (h : Sound x) (he : Completes x e) :
    Sound (step d E x e) := by
  have hready := OuchSession.ready (managed d E)
  cases e with
  | ouch c => exact ⟨h.ouchServer.step hready he.1.2.2 he.2, h.boe⟩
  | boe c => exact ⟨h.ouch, h.boeServer.step (BoeSession.ready (managed d E)) he.1.2.2 he.2⟩
  | command c => exact ⟨h.ouch, h.boe⟩
  | cancelAll =>
    obtain ⟨h1, h2, h3, h4, h5, h6, h7⟩ := h.ouch
    obtain ⟨g1, g2, g3, g4, g5, g6, g7⟩ := h.boe
    have hl := (OuchSession.sameLogin_cancelAll (managed d E) x.ouchServer.market).own
    exact ⟨⟨h1, h2, h3, fun hr => hl.trans (h4 hr), h5, h6, h7⟩, ⟨g1, g2, g3, g4, g5, g6, g7⟩⟩

/-- Along a run of handlers that return the servers are sound. -/
theorem sound_run {w : W} {ouchStart boeStart : ℤ} {es : List Event}
    (hes : Machine.Along (step d E) Completes (init d E w ouchStart boeStart) es) :
    Machine.Throughout (step d E) Sound (init d E w ouchStart boeStart) es :=
  Machine.throughout_of_along (fun _ _ h he => h.step he) (sound_init w ouchStart boeStart) hes

/-- The OUCH server has failed to accept a connection. -/
def FailsOuch : Event → Prop
  | .ouch c => c = .accept true
  | _ => False

/-- The BOE server has failed to accept a connection. -/
def FailsBoe : Event → Prop
  | .boe c => c = .accept true
  | _ => False

/-- The OUCH server goes on serving unless an accept fails. -/
theorem serving_ouch_step {x : Program D W} {e : Event} (h : Sound x) (he : Completes x e) :
    (step d E x e).ouch.Serving ↔ x.ouch.Serving ∧ ¬ FailsOuch e := by
  have hnext : Sound (step d E x e) := h.step he
  cases e with
  | ouch c => exact Server.serving_step h.ouchServer he.1.2.2 hnext.ouch.ended
  | _ => exact (and_iff_left id).symm

/-- The BOE server goes on serving unless an accept fails. -/
theorem serving_boe_step {x : Program D W} {e : Event} (h : Sound x) (he : Completes x e) :
    (step d E x e).boe.Serving ↔ x.boe.Serving ∧ ¬ FailsBoe e := by
  have hnext : Sound (step d E x e) := h.step he
  cases e with
  | boe c => exact Server.serving_step h.boeServer he.1.2.2 hnext.boe.ended
  | _ => exact (and_iff_left id).symm

/-- An OUCH client who logs in and enters an order, and hangs up when `bm cancel_all` has cancelled it;
what is pending then goes to the next connection. -/
def served : List Event :=
  [.ouch (.accept false),
    .ouch (.read (.bytes ([0, 47, 76] ++ List.replicate 26 32 ++ List.replicate 20 49 ++
      [0, 50, 85, 79] ++ List.replicate 14 97 ++ [66, 0, 0, 0, 100] ++ List.replicate 8 65 ++
      [0, 0, 0, 1] ++ [0, 1, 0x86, 0x9E] ++ List.replicate 4 65 ++
      [89, 79, 78, 0, 0, 0, 0, 78, 78]) zeros)),
    .ouch (.elapse 400), .ouch (.process false), .cancelAll, .ouch (.read .eof), .ouch (.process true),
    .ouch (.accept false)]

/-- Every handler of the served run returns. -/
theorem completes_served :
    Machine.Along (step oneDouble quietEnv) Completes (init oneDouble quietEnv () 0 0) served := by
  decide +kernel

/-- Every handler of the served run is enabled. -/
theorem enabled_served :
    Machine.Along (step oneDouble quietEnv) Enabled (init oneDouble quietEnv () 0 0) served :=
  completes_served.imp fun _ _ h => h.1

/-- A handler that does not return ends the program, and it is one of the BOE server. -/
theorem ended_step {x : Program D W} {e : Event} (h : Sound x) (he : Enabled x e) (hlogs : ¬ e.Logs) :
    (step d E x e).ouch.ended = none ∧ (step d E x e).boe.ended ≠ none := by
  cases e with
  | boe c => exact ⟨h.ouch.ended, fun hended => hlogs ((Server.ended_step_iff
      (BoeSession.ready (managed d E)) h.boeServer he.2.2).mp hended)⟩
  | ouch c =>
    refine absurd ?_ hlogs
    cases c with
    | read r =>
      cases r with
      | eof => trivial
      | bytes bs rest => exact soupBin_logs bs rest
    | _ => trivial
  | command c => exact absurd trivial hlogs
  | cancelAll => exact absurd trivial hlogs

/-- Nothing runs after a handler that does not return. -/
theorem eq_nil_of_ended {x : Program D W} {e : Event} {es : List Event} (h : Sound x) (he : Enabled x e)
    (hlogs : ¬ e.Logs) (hes : Machine.Along (step d E) Enabled (step d E x e) es) : es = [] := by
  cases es with
  | nil => rfl
  | cons e' es => exact absurd hes.1.2.1 (ended_step h he hlogs).2

/-- All handlers of a run return, or all but the last one. -/
theorem completes_or_ends {x : Program D W} {es : List Event} (hx : Sound x)
    (hes : Machine.Along (step d E) Enabled x es) :
    Machine.Along (step d E) Completes x es ∨ ∃ pre e, es = pre ++ [e] ∧
      Machine.Along (step d E) Completes x pre ∧ Enabled (Machine.run (step d E) x pre) e ∧ ¬ e.Logs := by
  induction es generalizing x with
  | nil => exact .inl trivial
  | cons e es ih =>
    by_cases hlogs : e.Logs
    · have he : Completes x e := ⟨hes.1, hlogs⟩
      rcases ih (hx.step he) hes.2 with hall | ⟨pre, e', rfl, hpre, he', hlogs'⟩
      · exact .inl ⟨he, hall⟩
      · exact .inr ⟨e :: pre, e', rfl, ⟨he, hpre⟩, he', hlogs'⟩
    · obtain rfl := eq_nil_of_ended hx hes.1 hlogs hes.2
      exact .inr ⟨[], e, rfl, trivial, hes.1, hlogs⟩

/-- Every handler of a run finds sound servers, also the last one of a run that ends the program. -/
theorem along_sound {C : Program D W → Event → Prop} (hC : ∀ {x e}, Sound x → Enabled x e → C x e)
    {x : Program D W} {es : List Event} (hx : Sound x) (hes : Machine.Along (step d E) Enabled x es) :
    Machine.Along (step d E) C x es := by
  induction es generalizing x with
  | nil => trivial
  | cons e es ih =>
    refine ⟨hC hx hes.1, ?_⟩
    by_cases hlogs : e.Logs
    · exact ih (hx.step ⟨hes.1, hlogs⟩) hes.2
    · obtain rfl := eq_nil_of_ended hx hes.1 hlogs hes.2
      trivial

/-- While all handlers return the servers are sound, and each listens or reads unless one of its accepts
has failed. -/
theorem serving_run {w : W} {ouchStart boeStart : ℤ} {es : List Event}
    (hes : Machine.Along (step d E) Completes (init d E w ouchStart boeStart) es) :
    let x := Machine.run (step d E) (init d E w ouchStart boeStart) es
    Sound x ∧ (x.ouch.Serving ↔ ∀ e ∈ es, ¬ FailsOuch e) ∧ (x.boe.Serving ↔ ∀ e ∈ es, ¬ FailsBoe e) := by
  have hsound := sound_init (d := d) (E := E) w ouchStart boeStart
  have houch := Machine.run_iff_along (P := fun x : Program D W => x.ouch.Serving)
    (C := fun _ e => ¬ FailsOuch e) (fun _ _ h he => Sound.step h he)
    (fun _ _ h he => serving_ouch_step h he) hsound hes
  have hboe := Machine.run_iff_along (P := fun x : Program D W => x.boe.Serving)
    (C := fun _ e => ¬ FailsBoe e) (fun _ _ h he => Sound.step h he)
    (fun _ _ h he => serving_boe_step h he) hsound hes
  rw [Machine.along_forall_iff] at houch hboe
  exact ⟨(sound_run hes).last, houch.trans (and_iff_right rfl), hboe.trans (and_iff_right rfl)⟩

/-- **The servers.** In every run of the program the OUCH server throws nothing, and the program ends
exactly with a BOE read that logs a packet behind the buffer. As long as it has not ended a socket is open
exactly while a read is outstanding, and a server either listens or reads unless one of its accepts has
failed, and neither from then on. -/
theorem servers_run {w : W} {ouchStart boeStart : ℤ} {es : List Event}
    (hes : Machine.Along (step d E) Enabled (init d E w ouchStart boeStart) es) :
    let x := Machine.run (step d E) (init d E w ouchStart boeStart) es
    x.ouch.ended = none ∧ (x.boe.ended = none ↔ ∀ e ∈ es, e.Logs) ∧
      (x.boe.ended = none → Sound x ∧ (x.ouch.Serving ↔ ∀ e ∈ es, ¬ FailsOuch e) ∧
        (x.boe.Serving ↔ ∀ e ∈ es, ¬ FailsBoe e)) := by
  rcases completes_or_ends (sound_init w ouchStart boeStart) hes with hall | ⟨pre, e, rfl, hpre, he, hlogs⟩
  · have hserving := serving_run hall
    have hlogged := Machine.along_forall_iff.mp (hall.imp fun _ _ he => he.2)
    exact ⟨hserving.1.ouch.ended, iff_of_true hserving.1.boe.ended hlogged, fun _ => hserving⟩
  · have hended := ended_step (d := d) (E := E) (sound_run hpre).last he hlogs
    rw [Machine.run_append, Machine.run_cons, Machine.run_nil]
    refine ⟨hended.1, iff_of_false hended.2 fun hall => ?_, fun hnone => absurd hnone hended.2⟩
    exact hlogs (hall e (List.mem_append_right pre List.mem_cons_self))

/-- A BOE client sends one packet of the type of a login response, before bytes that count 255 units. -/
def overflowed : List Event :=
  [.boe (.accept false),
    .boe (.read (.bytes [0xBA, 0xBA, 8, 0, 0x24, 0, 0, 0, 0, 0] (fun _ => 255)))]

/-- Both servers serve after the first run; the second one ends with its read. -/
theorem servers_run_served :
    (let x := Machine.run (step oneDouble quietEnv) (init oneDouble quietEnv () 0 0) served
     x.ouch.Serving ∧ x.boe.Serving) ∧
    (Machine.run (step oneDouble quietEnv) (init oneDouble quietEnv () 0 0) overflowed).boe.ended ≠ none := by
  constructor
  · have hrun := servers_run enabled_served
    have hended := hrun.2.1.mpr (by decide +kernel)
    obtain ⟨-, houch, hboe⟩ := hrun.2.2 hended
    exact ⟨houch.mpr (by simp [served, FailsOuch]), hboe.mpr (by simp [served, FailsBoe])⟩
  · have hes : Machine.Along (step oneDouble quietEnv) Enabled (init oneDouble quietEnv () 0 0) overflowed :=
      by decide +kernel
    have hrun := servers_run hes
    exact fun hended => absurd (hrun.2.1.mp hended) (by decide +kernel)

/-! ## The sessions of a run -/

/-- The simulator with the two sessions as they would be if nothing had ever been written. -/
def simulator (x : Program D W) : Simulator D W :=
  { env := x.env
    ouch := (x.ouch.whole Session.behind).inEnv x.env
    boe := (x.boe.whole Session.behind).inEnv x.env }

def ouchEvent : Call → OuchSession.Event
  | .setLogger => .setLogger
  | .packet p _ => .packet p
  | .marketLogic => .marketLogic
  | .disconnect => .disconnect

/-- A BOE session has no use for its logger. -/
def boeEvent : Call → Option BoeSession.Event
  | .setLogger => none
  | .packet p _ => some (.packet p)
  | .marketLogic => some .marketLogic
  | .disconnect => some .disconnect

/-- What a handler does to the sessions. -/
def Event.sessions : Event → List Simulator.Event
  | .ouch c => (c.calls soupBin).map fun call => .ouch (ouchEvent call)
  | .boe c => (c.calls TcpServer.boe).filterMap fun call => (boeEvent call).map .boe
  | .command c => [.command c]
  | .cancelAll => [.ouch .cancelAll, .boe .cancelAll]

end Program

/-- Both sessions find the surroundings as they are. -/
def Simulator.refresh (y : Simulator D W) : Simulator D W :=
  { y with ouch := y.ouch.inEnv y.env, boe := y.boe.inEnv y.env }

/-- A session that finds other surroundings than it left does not notice. -/
theorem Simulator.refresh_step (y : Simulator D W) (e : Simulator.Event) :
    (Simulator.step d E y.refresh e).refresh = (Simulator.step d E y e).refresh := by
  cases e with
  | ouch e => rfl
  | boe e => rfl
  | command c => rfl

/-- A run does not look at the copies of the surroundings in the sessions. -/
theorem Simulator.refresh_run (y : Simulator D W) (es : List Simulator.Event) :
    (Machine.run (Simulator.step d E) y.refresh es).refresh =
      (Machine.run (Simulator.step d E) y es).refresh :=
  Machine.run_normal (r := Simulator.refresh) (fun _ => rfl) (refresh_step d E) y es

namespace Program

variable {d E}

/-- A call of the OUCH server is an event of its session. -/
theorem run_call_ouch {s t : OuchSession W} {E : Env W} {c : Call}
    (h : Call.run (OuchSession.marketClass E) s c = .ok t) : OuchSession.step E s (ouchEvent c) = t := by
  cases c with
  | packet p len =>
    have hp : OuchSession.handlePacket E s p = .ok t := h
    rw [ouchEvent, OuchSession.step, hp]
  | _ => exact Except.ok.inj h

/-- Calls of the OUCH session are events of the simulator. -/
theorem run_calls_ouch {y : Simulator D W} {cs : List Call} {t : OuchSession (BehaviorManager D × W)}
    (h : cs.foldlM (Call.run (OuchSession.marketClass (managed d E))) (y.ouch.inEnv y.env) = .ok t) :
    (Machine.run (Simulator.step d E) y (cs.map fun c => .ouch (ouchEvent c))).refresh =
      Simulator.refresh { y with env := t.env, ouch := t } := by
  induction cs generalizing y with
  | nil =>
    obtain rfl : y.ouch.inEnv y.env = t := Except.ok.inj h
    rfl
  | cons c cs ih =>
    rw [List.foldlM_cons] at h
    rcases hc : Call.run (OuchSession.marketClass (managed d E)) (y.ouch.inEnv y.env) c with e | s
    · rw [hc] at h
      exact nomatch h
    · rw [hc] at h
      have hstep : Simulator.step d E y (.ouch (ouchEvent c)) = { y with env := s.env, ouch := s } := by
        rw [Simulator.step, run_call_ouch hc]
      rw [List.map_cons, Machine.run_cons, hstep, ih (y := { y with env := s.env, ouch := s }) h]

/-- A call of the BOE server is an event of its session, or none. -/
theorem run_call_boe {s t : BoeSession W} {E : Env W} {c : Call}
    (h : Call.run (BoeSession.marketClass E) s c = .ok t) :
    (boeEvent c).elim s (BoeSession.step E s) = t := by
  cases c with
  | _ => exact Except.ok.inj h

/-- Calls of the BOE session are events of the simulator. -/
theorem run_calls_boe {y : Simulator D W} {cs : List Call} {t : BoeSession (BehaviorManager D × W)}
    (h : cs.foldlM (Call.run (BoeSession.marketClass (managed d E))) (y.boe.inEnv y.env) = .ok t) :
    (Machine.run (Simulator.step d E) y (cs.filterMap fun c => (boeEvent c).map .boe)).refresh =
      Simulator.refresh { y with env := t.env, boe := t } := by
  induction cs generalizing y with
  | nil =>
    obtain rfl : y.boe.inEnv y.env = t := Except.ok.inj h
    rfl
  | cons c cs ih =>
    rw [List.foldlM_cons] at h
    rcases hc : Call.run (BoeSession.marketClass (managed d E)) (y.boe.inEnv y.env) c with e | s
    · rw [hc] at h
      exact nomatch h
    · rw [hc] at h
      have hcall := run_call_boe hc
      rcases hevent : boeEvent c with _ | e
      · rw [hevent] at hcall
        obtain rfl : y.boe.inEnv y.env = s := hcall
        rw [List.filterMap_cons_none (by rw [hevent]; rfl)]
        exact ih h
      · rw [hevent] at hcall
        have hstep : Simulator.step d E y (.boe e) = { y with env := s.env, boe := s } := by
          rw [Simulator.step]
          exact congrArg (fun s : BoeSession _ => { y with env := s.env, boe := s }) hcall
        rw [List.filterMap_cons_some (by rw [hevent]; rfl), Machine.run_cons, hstep,
          ih (y := { y with env := s.env, boe := s }) h]

/-- A handler does to the simulator what its calls do. -/
theorem simulator_step {x : Program D W} {e : Event} (h : Sound x) (he : Completes x e) :
    (Machine.run (Simulator.step d E) x.simulator e.sessions).refresh = (step d E x e).simulator := by
  have hnext : Sound (step d E x e) := h.step he
  cases e with
  | ouch c =>
    have hcalls := Server.calls_step (P := soupBin) (OuchSession.outbox (managed d E))
      (s := x.ouchServer) (c := c) hnext.ouch.ended
    exact run_calls_ouch (y := x.simulator) hcalls
  | boe c =>
    have hcalls := Server.calls_step (P := TcpServer.boe) (BoeSession.outbox (managed d E))
      (s := x.boeServer) (c := c) hnext.boe.ended
    exact run_calls_boe (y := x.simulator) hcalls
  | command c => rfl
  | cancelAll =>
    have houch := OuchSession.cancelAll_behind (managed d E) x.ouch.messages x.ouchServer.market
    have hboe := BoeSession.cancelAll_behind (managed d E) x.boe.messages
      (x.boe.market.inEnv (OuchSession.cancelAll (managed d E) x.ouchServer.market).1.env)
    show Simulator.refresh (Simulator.step d E (Simulator.step d E x.simulator (.ouch .cancelAll))
      (.boe .cancelAll)) = _
    have hfirst : Simulator.step d E x.simulator (.ouch .cancelAll) =
        { x.simulator with
          env := (OuchSession.cancelAll (managed d E) x.ouchServer.market).1.env
          ouch := (OuchSession.cancelAll (managed d E) x.ouchServer.market).1.behind x.ouch.messages } :=
      congrArg (fun r : OuchSession (BehaviorManager D × W) × ℕ =>
        { x.simulator with env := r.1.env, ouch := r.1 }) houch
    rw [hfirst]
    exact congrArg (fun r : BoeSession (BehaviorManager D × W) × ℕ => Simulator.refresh
      { env := r.1.env
        ouch := (OuchSession.cancelAll (managed d E) x.ouchServer.market).1.behind x.ouch.messages
        boe := r.1 }) hboe

/-- A run of handlers is a run of the events that they bring to the sessions. -/
theorem simulator_run {x : Program D W} {es : List Event} (hx : Sound x)
    (hes : Machine.Along (step d E) Completes x es) :
    (Machine.run (Simulator.step d E) x.simulator (es.flatMap Event.sessions)).refresh =
      (Machine.run (step d E) x es).simulator := by
  induction es generalizing x with
  | nil => rfl
  | cons e es ih =>
    rw [List.flatMap_cons, Machine.run_append, Machine.run_cons, ← ih (hx.step hes.1) hes.2,
      ← Simulator.refresh_run, simulator_step hx hes.1]

/-- A run of the program from its start is one of the simulator from its own. -/
theorem simulator_refresh {w : W} {ouchStart boeStart : ℤ} {es : List Event}
    (hes : Machine.Along (step d E) Completes (init d E w ouchStart boeStart) es) :
    (Machine.run (Simulator.step d E) (Simulator.init d E w) (es.flatMap Event.sessions)).refresh =
      (Machine.run (step d E) (init d E w ouchStart boeStart) es).simulator := by
  have hsame := simulator_run (sound_init w ouchStart boeStart) hes
  have hinit : (init d E w ouchStart boeStart).simulator = (Simulator.init d E w).refresh := rfl
  rwa [hinit, Simulator.refresh_run] at hsame

/-- **Refinement.** In every run of the program the sessions are those of the simulator over the calls
of the handlers, and the messages of each are those that have been written, in their order, and behind
them those that are pending. -/
theorem refines_simulator {w : W} {ouchStart boeStart : ℤ} {es : List Event}
    (hes : Machine.Along (step d E) Completes (init d E w ouchStart boeStart) es) :
    let x := Machine.run (step d E) (init d E w ouchStart boeStart) es
    let y := Machine.run (Simulator.step d E) (Simulator.init d E w) (es.flatMap Event.sessions)
    y.refresh = x.simulator ∧
      y.ouch.pendingOutMessages = x.ouch.messages ++ x.ouch.market.pendingOutMessages ∧
      y.boe.pendingOutMessages = x.boe.messages ++ x.boe.market.pendingOutMessages :=
  have hsame := simulator_refresh hes
  ⟨hsame, congrArg (fun y : Simulator D W => y.ouch.pendingOutMessages) hsame,
    congrArg (fun y : Simulator D W => y.boe.pendingOutMessages) hsame⟩

/-- What the served run has written. -/
theorem refines_simulator_served :
    let x := Machine.run (step oneDouble quietEnv) (init oneDouble quietEnv () 0 0) served
    let y := Machine.run (Simulator.step oneDouble quietEnv) (Simulator.init oneDouble quietEnv ())
      (served.flatMap Event.sessions)
    y.refresh = x.simulator ∧
      y.ouch.pendingOutMessages = x.ouch.messages ++ x.ouch.market.pendingOutMessages ∧
      y.boe.pendingOutMessages = x.boe.messages ++ x.boe.market.pendingOutMessages :=
  refines_simulator completes_served

/-! ## What waits to be written -/

/-- The handler writes what is pending to the OUCH client. -/
def FlushesOuch : Event → Prop
  | .ouch c => c.flushes = true
  | _ => False

/-- The handler writes what is pending to the BOE member. -/
def FlushesBoe : Event → Prop
  | .boe c => c.flushes = true
  | _ => False

/-- A `bm cancel_all` that cancels an OUCH order. -/
def CancelsOuch (d : Double D) (E : Env W) (x : Program D W) : Event → Prop
  | .cancelAll => 0 < (cancelAll d E x).2.1
  | _ => False

/-- A `bm cancel_all` that cancels a BOE order. -/
def CancelsBoe (d : Double D) (E : Env W) (x : Program D W) : Event → Prop
  | .cancelAll => 0 < (cancelAll d E x).2.2
  | _ => False

/-- Something is there behind a step that appends `n` entries. -/
theorem append_ne_nil_iff {M : Type} {l l' ms : List M} {n : ℕ} (hl : l' = l ++ ms)
    (hn : n = ms.length) : l' ≠ [] ↔ 0 < n ∨ l ≠ [] := by
  rw [hl, hn, Ne, List.append_eq_nil_iff, not_and_or, List.length_pos_iff]
  exact or_comm

/-- OUCH messages wait behind a handler if it has cancelled, or if they waited and it does not write. -/
theorem pending_ouch_step {x : Program D W} {e : Event} (h : Sound x) (he : Completes x e) :
    (step d E x e).ouch.market.pendingOutMessages ≠ [] ↔
      CancelsOuch d E x e ∨ x.ouch.market.pendingOutMessages ≠ [] ∧ ¬ FlushesOuch e := by
  have hnext : Sound (step d E x e) := h.step he
  cases e with
  | command c => exact ⟨fun hne => .inr ⟨hne, id⟩, fun hor => (hor.resolve_left id).1⟩
  | boe c => exact ⟨fun hne => .inr ⟨hne, id⟩, fun hor => (hor.resolve_left id).1⟩
  | cancelAll =>
    obtain ⟨ms, hms, hcount, -⟩ := OuchSession.cancelAll_out (managed d E) x.ouchServer.market
    refine (append_ne_nil_iff hms hcount).trans (or_congr_right ?_)
    exact (and_iff_left id).symm
  | ouch c =>
    have hpending := Server.pending_step (P := soupBin) (OuchSession.outbox (managed d E))
      (s := x.ouchServer) (c := c) hnext.ouch.ended
    show (OuchSession.marketClass (managed d E)).pending _ ≠ [] ↔ _
    refine Iff.trans ?_ (or_iff_right id).symm
    show (OuchSession.marketClass (managed d E)).pending (Server.step soupBin
      (OuchSession.marketClass (managed d E)) x.ouchServer c).market ≠ [] ↔ _
    rw [hpending]
    by_cases hflush : c.flushes = true
    · rw [if_pos hflush]
      exact iff_of_false (fun hne => hne rfl) fun hand => hand.2 hflush
    · rw [if_neg hflush]
      exact (and_iff_left hflush).symm

/-- BOE messages wait behind a handler if it has cancelled, or if they waited and it does not write. -/
theorem pending_boe_step {x : Program D W} {e : Event} (h : Sound x) (he : Completes x e) :
    (step d E x e).boe.market.pendingOutMessages ≠ [] ↔
      CancelsBoe d E x e ∨ x.boe.market.pendingOutMessages ≠ [] ∧ ¬ FlushesBoe e := by
  have hnext : Sound (step d E x e) := h.step he
  cases e with
  | command c => exact ⟨fun hne => .inr ⟨hne, id⟩, fun hor => (hor.resolve_left id).1⟩
  | ouch c => exact ⟨fun hne => .inr ⟨hne, id⟩, fun hor => (hor.resolve_left id).1⟩
  | cancelAll =>
    obtain ⟨ms, hms, hcount, -⟩ := BoeSession.cancelAll_out (managed d E) (x.boe.market.inEnv
      (OuchSession.cancelAll (managed d E) x.ouchServer.market).1.env)
    refine (append_ne_nil_iff hms hcount).trans (or_congr_right ?_)
    exact (and_iff_left id).symm
  | boe c =>
    have hpending := Server.pending_step (P := TcpServer.boe) (BoeSession.outbox (managed d E))
      (s := x.boeServer) (c := c) hnext.boe.ended
    refine Iff.trans ?_ (or_iff_right id).symm
    show (BoeSession.marketClass (managed d E)).pending (Server.step TcpServer.boe
      (BoeSession.marketClass (managed d E)) x.boeServer c).market ≠ [] ↔ _
    rw [hpending]
    by_cases hflush : c.flushes = true
    · rw [if_pos hflush]
      exact iff_of_false (fun hne => hne rfl) fun hand => hand.2 hflush
    · rw [if_neg hflush]
      exact (and_iff_left hflush).symm

/-- **What waits.** In every run of the program messages of a session are pending between handlers
exactly when a `bm cancel_all` has cancelled orders of it and no handler of its server has written
since; every other message is written by the handler that makes it. -/
theorem pending_iff {w : W} {ouchStart boeStart : ℤ} {es : List Event}
    (hes : Machine.Along (step d E) Completes (init d E w ouchStart boeStart) es) :
    let x := Machine.run (step d E) (init d E w ouchStart boeStart)
    ((x es).ouch.market.pendingOutMessages ≠ [] ↔ ∃ pre e post, es = pre ++ e :: post ∧
        CancelsOuch d E (x pre) e ∧ ∀ e' ∈ post, ¬ FlushesOuch e') ∧
      ((x es).boe.market.pendingOutMessages ≠ [] ↔ ∃ pre e post, es = pre ++ e :: post ∧
        CancelsBoe d E (x pre) e ∧ ∀ e' ∈ post, ¬ FlushesBoe e') := by
  have hsound := sound_init (d := d) (E := E) w ouchStart boeStart
  have houch := Machine.latch_run_iff (P := fun x : Program D W => x.ouch.market.pendingOutMessages ≠ [])
    (fun _ _ h he => Sound.step h he) (fun _ _ h he => pending_ouch_step h he) hsound hes
  have hboe := Machine.latch_run_iff (P := fun x : Program D W => x.boe.market.pendingOutMessages ≠ [])
    (fun _ _ h he => Sound.step h he) (fun _ _ h he => pending_boe_step h he) hsound hes
  simp only [Machine.Latched, Machine.along_forall_iff] at houch hboe
  exact ⟨houch.trans (or_iff_left fun h => h.1 rfl), hboe.trans (or_iff_left fun h => h.1 rfl)⟩

/-- Where messages wait in the served run. -/
theorem pending_iff_served :
    let x := Machine.run (step oneDouble quietEnv) (init oneDouble quietEnv () 0 0)
    ((x served).ouch.market.pendingOutMessages ≠ [] ↔ ∃ pre e post, served = pre ++ e :: post ∧
        CancelsOuch oneDouble quietEnv (x pre) e ∧ ∀ e' ∈ post, ¬ FlushesOuch e') ∧
      ((x served).boe.market.pendingOutMessages ≠ [] ↔ ∃ pre e post, served = pre ++ e :: post ∧
        CancelsBoe oneDouble quietEnv (x pre) e ∧ ∀ e' ∈ post, ¬ FlushesBoe e') :=
  pending_iff completes_served

end Program

end Evtsim
