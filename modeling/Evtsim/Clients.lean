import Evtsim.Boe.Decode
import Evtsim.Boe.Encode
import Evtsim.Ouch.Decode
import Evtsim.Ouch.Encode
import Evtsim.Ticks

/-!
# The clients

A client reads the bytes of its connection in whatever chunks they arrive. `clients_read` follows every
message from the session that makes it to the client that reads it. In the other direction the servers
need every read to end where a message does: then `answers_clients` says that the program is the simulator
`Simulator.answer`, which knows messages and no bytes.
-/

namespace Evtsim

open TcpServer Wire Session

namespace TcpServer.Server

variable {σ M : Type}

/-- The bytes that have been written to a connection. -/
def stream (s : Server σ M) (encode : M → List UInt8) (n : ℕ) : List UInt8 :=
  ((s.writtenTo n).map encode).flatten

/-- Let the bytes of each connection arrive in any chunks. At any time each client has read the messages
that have arrived in full, and holds a part of the next. When everything has arrived, the clients have
read what has been sent, one connection after the other, up to what is pending. -/
def ReadBack (s : Server σ M) (r : Reader M) (encode : M → List UInt8) (sent pending : List M) : Prop :=
  ∀ arrived : ℕ → List (List UInt8), (∀ n, (arrived n).flatten <+: s.stream encode n) →
    (∀ n, (readChunks r (arrived n)).ReadUpTo encode (s.writtenTo n) (arrived n).flatten) ∧
      ((∀ n, (arrived n).flatten = s.stream encode n) →
        sent = (List.range s.connections).flatMap (fun n => (readChunks r (arrived n)).messages) ++
          pending)

/-- What arrives of the streams is read back as messages that have been written, and as all of them if all
arrives. -/
theorem readBack (s : Server σ M) {r : Reader M} {encode : M → List UInt8}
    (hr : ∀ m, Reads r (encode m) m) (hempty : r.run [] = none) {sent pending : List M}
    (hsent : sent = (List.range s.connections).flatMap s.writtenTo ++ pending) :
    s.ReadBack r encode sent pending := by
  intro arrived harrived
  have hread := fun n => readUpTo_readChunks hr hempty (harrived n)
  refine ⟨hread, fun hall => ?_⟩
  have hmessages : ∀ n, (readChunks r (arrived n)).messages = s.writtenTo n := by
    intro n
    have hn := hread n
    rw [hall n] at hn
    exact hn.messages_eq hr hempty
  rw [List.flatMap_congr fun n _ => hmessages n]
  exact hsent

end TcpServer.Server

namespace Program

variable {D W : Type} {d : Double D} {E : Env W}

/-- The clients read back what is sent by a simulator that the program refines. -/
theorem readBack_of_refresh {w : W} {ouchStart boeStart : ℤ} {es : List Event}
    (hes : Machine.Along (step d E) Completes (init d E w ouchStart boeStart) es)
    (hstray : Machine.Along (step d E) NoStray (init d E w ouchStart boeStart) es)
    {x : Program D W} (hx : Machine.run (step d E) (init d E w ouchStart boeStart) es = x)
    {y : Simulator D W} (hsame : y.refresh = x.simulator) :
    x.ouch.ReadBack Ouch.OutMsg.read Ouch.OutMsg.bytes y.ouch.pendingOutMessages
        x.ouch.market.pendingOutMessages ∧
      x.boe.ReadBack Boe.OutMsg.read Boe.OutMsg.bytes y.boe.pendingOutMessages
        x.boe.market.pendingOutMessages := by
  subst hx
  obtain ⟨houch, hboe⟩ := messages_written hes hstray
  constructor
  · apply Server.readBack _ Ouch.OutMsg.reads_bytes rfl
    rw [← houch]
    exact congrArg (fun y : Simulator D W => y.ouch.pendingOutMessages) hsame
  · apply Server.readBack _ Boe.OutMsg.reads_bytes rfl
    rw [← hboe]
    exact congrArg (fun y : Simulator D W => y.boe.pendingOutMessages) hsame

/-- **What the clients read.** In a run of the program in which no connection ends while a tick is queued
the clients of each server read back all that its session has sent, however their bytes arrive, and up to
what is pending. -/
theorem clients_read {w : W} {ouchStart boeStart : ℤ} {es : List Event}
    (hes : Machine.Along (step d E) Completes (init d E w ouchStart boeStart) es)
    (hstray : Machine.Along (step d E) NoStray (init d E w ouchStart boeStart) es) :
    let x := Machine.run (step d E) (init d E w ouchStart boeStart) es
    let y := Machine.run (Simulator.step d E) (Simulator.init d E w) (es.flatMap Event.sessions)
    x.ouch.ReadBack Ouch.OutMsg.read Ouch.OutMsg.bytes y.ouch.pendingOutMessages
        x.ouch.market.pendingOutMessages ∧
      x.boe.ReadBack Boe.OutMsg.read Boe.OutMsg.bytes y.boe.pendingOutMessages
        x.boe.market.pendingOutMessages :=
  readBack_of_refresh hes hstray rfl (simulator_refresh hes)

/-- The clients of the served run read what has been written to them. -/
theorem clients_read_served :
    let x := Machine.run (step oneDouble quietEnv) (init oneDouble quietEnv () 0 0) served
    let y := Machine.run (Simulator.step oneDouble quietEnv) (Simulator.init oneDouble quietEnv ())
      (served.flatMap Event.sessions)
    x.ouch.ReadBack Ouch.OutMsg.read Ouch.OutMsg.bytes y.ouch.pendingOutMessages
        x.ouch.market.pendingOutMessages ∧
      x.boe.ReadBack Boe.OutMsg.read Boe.OutMsg.bytes y.boe.pendingOutMessages
        x.boe.market.pendingOutMessages :=
  clients_read completes_served (by decide +kernel)

end Program

/-! ## What the clients write -/

namespace Simulator

/-- What the sessions are asked, with messages in place of packets. -/
inductive Asked
  | ouch (m : Ouch.ClientMsg)
  | boe (m : Boe.MemberMsg)
  | event (e : Event)

variable {D W : Type} (d : Double D) (E : Env W)

/-- One message or event. -/
def answer (y : Simulator D W) : Asked → Simulator D W
  | .ouch m =>
    let s := OuchSession.respond (managed d E) (y.ouch.inEnv y.env) (OuchSession.asks m)
    { y with env := s.env, ouch := s }
  | .boe m =>
    let s := BoeSession.respond (managed d E) (y.boe.inEnv y.env) (BoeSession.asks m)
    { y with env := s.env, boe := s }
  | .event e => step d E y e

variable {d E}

/-- An answer does not look at the copies of the surroundings in the sessions. -/
theorem refresh_answer (y : Simulator D W) (a : Asked) :
    (answer d E y.refresh a).refresh = (answer d E y a).refresh := by
  cases a with
  | ouch m => rfl
  | boe m => rfl
  | event e => exact refresh_step d E y e

/-- Several answers do not either. -/
theorem refresh_run_answer (y : Simulator D W) (as : List Asked) :
    (Machine.run (answer d E) y.refresh as).refresh = (Machine.run (answer d E) y as).refresh :=
  Machine.run_normal (r := refresh) (fun _ => rfl) refresh_answer y as

/-- A packet in which a message stands is answered as the message is. -/
theorem step_ouch_packet {y : Simulator D W} {p : Mem} {m : Ouch.ClientMsg} (hl : y.ouch.l = true)
    (hp : p.Holds 0 m.bytes) :
    step d E y (.ouch (.packet p)) = answer d E y (.ouch m) ∧
      (step d E y (.ouch (.packet p))).ouch.l = true := by
  have hsession : OuchSession.step (managed d E) (y.ouch.inEnv y.env) (.packet p) =
      OuchSession.respond (managed d E) (y.ouch.inEnv y.env) (OuchSession.asks m) := by
    rw [← OuchSession.request_of_holds hp, OuchSession.step,
      OuchSession.handlePacket_eq _ (s := y.ouch.inEnv y.env) hl]
  refine ⟨by rw [step, hsession, answer], ?_⟩
  show (OuchSession.step (managed d E) (y.ouch.inEnv y.env) (.packet p)).l = true
  rw [hsession]
  rcases OuchSession.asks m with _ | r
  · exact hl
  · exact (OuchSession.handle_login (managed d E) _ r).1.trans hl

/-- A packet with the bytes of a message is answered as the message. -/
theorem step_boe_packet {y : Simulator D W} {p : Mem} {m : Boe.MemberMsg} (hp : p.Holds 0 m.bytes) :
    step d E y (.boe (.packet p)) = answer d E y (.boe m) := by
  have hsession : BoeSession.step (managed d E) (y.boe.inEnv y.env) (.packet p) =
      BoeSession.respond (managed d E) (y.boe.inEnv y.env) (BoeSession.asks m) := by
    rw [← BoeSession.request_of_holds hp]
    exact BoeSession.handlePacket_eq (managed d E) _ p
  rw [step, hsession, answer]

end Simulator

namespace Program

variable {D W : Type} {d : Double D} {E : Env W}

/-- What a handler brings to the sessions: a read the messages that the client has written whole, any
other handler its calls. -/
def Event.Says : Event → List Simulator.Asked → Prop
  | .ouch (.read (.bytes bs _)), as => ∃ ms : List Ouch.ClientMsg,
      bs = ms.flatMap Ouch.ClientMsg.bytes ∧ as = ms.map .ouch
  | .boe (.read (.bytes bs _)), as => ∃ ms : List Boe.MemberMsg,
      bs = ms.flatMap Boe.MemberMsg.bytes ∧ as = ms.map .boe
  | e, as => as = e.sessions.map .event

/-- The packets of a read that brings whole messages are logged inside their buffers. -/
theorem Event.Says.logs {e : Event} {as : List Simulator.Asked} (hs : e.Says as) : e.Logs := by
  cases e with
  | ouch c =>
    cases c with
    | read r =>
      cases r with
      | bytes bs behind => exact soupBin_logs bs behind
      | eof => trivial
    | _ => trivial
  | boe c =>
    cases c with
    | read r =>
      cases r with
      | bytes bs behind =>
        obtain ⟨ms, rfl, -⟩ := hs
        have hframes := holds_frames Boe.MemberMsg.wellFormed ms behind
        have hfits := hframes.imp fun p _ hp => And.intro (decide_eq_true (Boe.MemberMsg.fits hp)) hp
        exact ((List.forall₂_and_left _ _).mp hfits).1
      | eof => trivial
    | _ => trivial
  | _ => trivial

/-- Every handler of a run that brings whole messages returns. -/
theorem completes_of_says {x : Program D W} {es : List Event} {as : List (List Simulator.Asked)}
    (hes : Machine.Along (step d E) Enabled x es) (hall : List.Forall₂ Event.Says es as) :
    Machine.Along (step d E) Completes x es := by
  have hlogs : ∀ e ∈ es, e.Logs :=
    ((List.forall₂_and_left _ _).mp (hall.imp fun _ _ hs => ⟨hs.logs, hs⟩)).1
  exact hes.and (Machine.along_forall_iff.mpr hlogs)

/-- A run of events is a run of answers. -/
theorem run_event (y : Simulator D W) (es : List Simulator.Event) :
    Machine.run (Simulator.answer d E) y (es.map .event) = Machine.run (Simulator.step d E) y es := by
  induction es generalizing y with
  | nil => rfl
  | cons e es ih => exact ih _

/-- The packets of a read are the events of the session. -/
theorem sessions_frames (ps : List (Mem × ℕ)) :
    ps.filterMap ((fun call => (boeEvent call).map Simulator.Event.boe) ∘ fun p => .packet p.1 p.2) =
      ps.map fun p => .boe (.packet p.1) :=
  congrFun (List.filterMap_eq_map (f := fun p : Mem × ℕ => Simulator.Event.boe (.packet p.1))) ps

/-- What a handler does to the sessions is what it brings to them. -/
theorem says_step {x : Program D W} {e : Event} (h : Sound x) (he : Completes x e)
    {as : List Simulator.Asked} (hs : e.Says as) :
    Machine.run (Simulator.step d E) x.simulator e.sessions =
      Machine.run (Simulator.answer d E) x.simulator as := by
  unfold Event.Says at hs
  split at hs
  · obtain ⟨ms, rfl, rfl⟩ := hs
    have hl : x.simulator.ouch.l = true := h.ouch.ready he.1.2.2
    refine Machine.run_forall₂ (I := fun y : Simulator D W => y.ouch.l = true)
      (R := fun e a => ∃ p m, e = .ouch (.packet p) ∧ a = .ouch m ∧ p.Holds 0 m.bytes) ?_ hl ?_
    · rintro y e a hl ⟨p, m, rfl, rfl, hp⟩
      exact Simulator.step_ouch_packet hl hp
    · unfold Event.sessions Completion.calls
      dsimp only
      rw [List.map_map, List.forall₂_map_left_iff, List.forall₂_map_right_iff]
      exact (holds_frames Ouch.ClientMsg.wellFormed ms _).imp fun p m hp => ⟨p.1, m, rfl, rfl, hp⟩
  · obtain ⟨ms, rfl, rfl⟩ := hs
    refine Machine.run_forall₂ (I := fun _ : Simulator D W => True)
      (R := fun e a => ∃ p m, e = .boe (.packet p) ∧ a = .boe m ∧ p.Holds 0 m.bytes) ?_ trivial ?_
    · rintro y e a - ⟨p, m, rfl, rfl, hp⟩
      exact ⟨Simulator.step_boe_packet hp, trivial⟩
    · unfold Event.sessions Completion.calls
      dsimp only
      rw [List.filterMap_map, sessions_frames, List.forall₂_map_left_iff, List.forall₂_map_right_iff]
      exact (holds_frames Boe.MemberMsg.wellFormed ms _).imp fun p m hp => ⟨p.1, m, rfl, rfl, hp⟩
  · rw [hs, run_event]

/-- A run of handlers is a run of the answers to what they bring. -/
theorem says_run {x : Program D W} {es : List Event} {as : List (List Simulator.Asked)} (hx : Sound x)
    (hes : Machine.Along (step d E) Completes x es) (hall : List.Forall₂ Event.Says es as) :
    (Machine.run (Simulator.answer d E) x.simulator as.flatten).refresh =
      (Machine.run (step d E) x es).simulator := by
  induction hall generalizing x with
  | nil => rfl
  | cons hsaid _ ih =>
    have hstep := simulator_step (d := d) (E := E) hx hes.1
    rw [says_step hx hes.1 hsaid] at hstep
    rw [List.flatten_cons, Machine.run_append, Machine.run_cons, ← ih (hx.step hes.1) hes.2, ← hstep,
      Simulator.refresh_run_answer]

/-- **The program as its clients see it.** In a run in which every read brings whole messages, the
sessions are those of the simulator that is asked these messages, the other handlers between them; and
if no connection ends while a tick is queued, what this simulator sends is what the clients read back. -/
theorem answers_clients {w : W} {ouchStart boeStart : ℤ} {es : List Event}
    {as : List (List Simulator.Asked)}
    (hes : Machine.Along (step d E) Enabled (init d E w ouchStart boeStart) es)
    (hall : List.Forall₂ Event.Says es as) :
    let x := Machine.run (step d E) (init d E w ouchStart boeStart) es
    let y := Machine.run (Simulator.answer d E) (Simulator.init d E w) as.flatten
    y.refresh = x.simulator ∧
      (Machine.Along (step d E) NoStray (init d E w ouchStart boeStart) es →
        x.ouch.ReadBack Ouch.OutMsg.read Ouch.OutMsg.bytes y.ouch.pendingOutMessages
            x.ouch.market.pendingOutMessages ∧
          x.boe.ReadBack Boe.OutMsg.read Boe.OutMsg.bytes y.boe.pendingOutMessages
            x.boe.market.pendingOutMessages) := by
  intro x y
  have hcompletes := completes_of_says hes hall
  have hinit : (init d E w ouchStart boeStart).simulator = (Simulator.init d E w).refresh := rfl
  have hsame : y.refresh = x.simulator := by
    have hrun := says_run (sound_init w ouchStart boeStart) hcompletes hall
    rwa [hinit, Simulator.refresh_run_answer] at hrun
  exact ⟨hsame, fun hstray => readBack_of_refresh hcompletes hstray rfl hsame⟩

/-- The login and the order of `served`. -/
def servedAsks : List Ouch.ClientMsg :=
  [.loginRequest (fun _ => 32) (fun _ => 32) (fun _ => 32) fun _ => 49,
    .enterOrder
      { token := ⟨fun _ => 97⟩, side := 66, qty := 100, symbol := fun _ => 65, price := 1
        timeInForce := 99998, firm := fun _ => 65, display := 89, capacity := 79
        intermarketSweepEligibility := 78, minQty := 0, crossType := 78, customerType := 78 }]

def servedSays : List (List Simulator.Asked) :=
  [[.event (.ouch .setLogger)], servedAsks.map .ouch, [], [.event (.ouch .marketLogic)],
    [.event (.ouch .cancelAll), .event (.boe .cancelAll)], [.event (.ouch .disconnect)], [],
    [.event (.ouch .setLogger)]]

/-- What the handlers of the served run bring. -/
theorem says_served : List.Forall₂ Event.Says served servedSays :=
  .cons rfl (.cons ⟨servedAsks, by decide +kernel, rfl⟩ (.cons rfl (.cons rfl (.cons rfl (.cons rfl
    (.cons rfl (.cons rfl .nil)))))))

/-- The sessions of the served run answer their clients, who read the answers. -/
theorem answers_clients_served :
    let x := Machine.run (step oneDouble quietEnv) (init oneDouble quietEnv () 0 0) served
    let y := Machine.run (Simulator.answer oneDouble quietEnv) (Simulator.init oneDouble quietEnv ())
      servedSays.flatten
    y.refresh = x.simulator ∧
      (Machine.Along (step oneDouble quietEnv) NoStray (init oneDouble quietEnv () 0 0) served →
        x.ouch.ReadBack Ouch.OutMsg.read Ouch.OutMsg.bytes y.ouch.pendingOutMessages
            x.ouch.market.pendingOutMessages ∧
          x.boe.ReadBack Boe.OutMsg.read Boe.OutMsg.bytes y.boe.pendingOutMessages
            x.boe.market.pendingOutMessages) :=
  answers_clients enabled_served says_served

end Program

end Evtsim
