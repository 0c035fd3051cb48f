import Evtsim.TcpServer
import Evtsim.Ouch.Outbox
import Evtsim.Boe.Outbox
import Evtsim.Lib.Timer

/-!
# A server (`tcp_server.cpp`)

`TCPServer` as the handlers that `io_service` runs: a completed accept, a completed read, and a timer
whose wait has ended. `Server` keeps what decides which of them can come next, and `Enabled` says which
can. An exception leaves `io_service.run` and ends everything, and so does a log call that writes behind
its buffer, after which nothing can be said.

`send` hands each pending message to `asio::write` and clears the list. The error code is not looked at, so
the call never fails, whether a client is there or not; `written` records every message with the connection
the socket was open on, `none` after a reconnect and before the next accept. What `send` logs stays in its
buffer (`BoeSession.fits_run`).
-/

namespace Evtsim

open Wire Session
open DeadlineTimer (Periodic)

/-- The session of a server: its virtual functions and `pending_out_messages`. -/
structure MarketClass (σ M : Type) extends SessionClass σ where
  setLogger : σ → σ
  marketLogic : σ → σ
  pending : σ → List M
  clear : σ → σ

def OuchSession.marketClass {W : Type} (E : Env W) : MarketClass (OuchSession W) Ouch.OutMsg :=
  { OuchSession.sessionClass E with
    setLogger := fun s => { s with own := { s.own with l := true } }
    marketLogic := OuchSession.marketLogic E
    pending := Session.pendingOutMessages
    clear := Session.clearOut }

def BoeSession.marketClass {W : Type} (E : Env W) : MarketClass (BoeSession W) Boe.OutMsg :=
  { BoeSession.sessionClass E with
    setLogger := fun s => s
    marketLogic := BoeSession.marketLogic E
    pending := Session.pendingOutMessages
    clear := Session.clearOut }

namespace TcpServer

/-- `1000/MAX_EXEC_PER_SECOND`, in milliseconds. -/
def tickPeriod : ℤ := 1000 / 3

/-- `TCPServer` over a session `σ` with messages `M`. -/
structure Server (σ M : Type) where
  market : σ
  timer : DeadlineTimer
  /-- An `async_accept` has not completed. -/
  accepting : Bool
  /-- An `async_read_some` has not completed. -/
  reading : Bool
  /-- The connection that the socket is open on. -/
  connection : Option ℕ
  /-- How many connections there have been. -/
  connections : ℕ
  written : List (Option ℕ × M)
  /-- What has ended the program: the exception of a handler, or a write behind a local buffer. -/
  ended : Option String

/-- A handler that runs, or the clock. -/
inductive Completion
  | accept (error : Bool)
  | read (r : Received)
  | elapse (now : ℤ)
  | process (error : Bool)

namespace Server

variable {σ M : Type}

/-- `TCPServer::TCPServer` at the time `now`, in milliseconds. -/
def new (market : σ) (now : ℤ) : Server σ M :=
  { market := market
    timer := ⟨now + tickPeriod, 0, 0, 0⟩
    accepting := true
    reading := false
    connection := none
    connections := 0
    written := []
    ended := none }

section

variable (P : Protocol) (C : MarketClass σ M)

/-- `send` -/
def send (s : Server σ M) : Server σ M :=
  { s with
    market := C.clear s.market
    written := s.written ++ (C.pending s.market).map (s.connection, ·) }

/-- `reconnect` -/
def reconnect (s : Server σ M) : Server σ M :=
  { s with
    timer := s.timer.cancel
    market := C.disconnect s.market
    connection := none
    accepting := true }

/-- `accept` -/
def accept (s : Server σ M) (error : Bool) : Server σ M :=
  let s := { s with accepting := false }
  if error then s
  else
    { s with
      market := C.setLogger s.market
      reading := true
      timer := s.timer.asyncWait
      connection := some s.connections
      connections := s.connections + 1 }

/-- `process` -/
def process (s : Server σ M) (error : Bool) : Server σ M :=
  if error then { s with timer := s.timer.drop }
  else
    let s := send C { s with market := C.marketLogic s.market, timer := s.timer.take }
    { s with timer := (s.timer.expiresAt (s.timer.expiry + tickPeriod)).asyncWait }

/-- `read` of either server. -/
def read (s : Server σ M) (r : Received) : Server σ M :=
  let s := { s with reading := false }
  match r with
  | .eof => reconnect C s
  | .bytes bs behind =>
    match TcpServer.read P C.toSessionClass s.market (.bytes bs behind) with
    | .error e => { s with ended := some e }
    | .ok market => { send C { s with market := market } with reading := true }

/-- One handler, or the clock. -/
def step (s : Server σ M) : Completion → Server σ M
  | .accept error => accept C s error
  | .read r => read P C s r
  | .elapse now => { s with timer := s.timer.elapse now }
  | .process error => process C s error

end

/-- Whether a handler can be the next to run. -/
def Enabled (s : Server σ M) : Completion → Prop
  | .accept _ => s.accepting = true
  | .read _ => s.reading = true
  | .elapse _ => True
  | .process false => 0 < s.timer.due
  | .process true => 0 < s.timer.aborted

instance (s : Server σ M) : ∀ c, Decidable (s.Enabled c)
  | .accept _ => inferInstanceAs (Decidable (s.accepting = true))
  | .read _ => inferInstanceAs (Decidable (s.reading = true))
  | .elapse _ => isTrue trivial
  | .process false => inferInstanceAs (Decidable (0 < s.timer.due))
  | .process true => inferInstanceAs (Decidable (0 < s.timer.aborted))

/-- The messages that have been written. -/
def messages (s : Server σ M) : List M := s.written.map Prod.snd

/-! ## The timer -/

/-- The timer of a server runs while there is a connection. -/
def periodic (s : Server σ M) : Periodic := ⟨s.timer, s.connection.isSome⟩

end Server

/-- What a handler does to the timer. -/
def Completion.op : Completion → Periodic.Op
  | .accept false => .start
  | .accept true => .skip
  | .read .eof => .stop
  | .read (.bytes _ _) => .skip
  | .elapse now => .elapse now
  | .process false => .tick
  | .process true => .drop

namespace Server

variable {σ M : Type} (P : Protocol) (C : MarketClass σ M)

/-- A server uses its timer periodically. -/
theorem periodic_step (s : Server σ M) (c : Completion) :
    (step P C s c).periodic = Periodic.step tickPeriod s.periodic c.op := by
  cases c with
  | accept error =>
    cases error with
    | false => rfl
    | true => rfl
  | read r =>
    cases r with
    | eof => rfl
    | bytes bs behind =>
      simp only [step, read, Completion.op, Periodic.step]
      split
      · rfl
      · rfl
  | elapse now => rfl
  | process error =>
    cases error with
    | false => rfl
    | true => rfl

/-- The connection ends while a tick is queued. -/
def Stray (s : Server σ M) : Completion → Prop
  | .read .eof => 0 < s.timer.due
  | _ => False

instance (s : Server σ M) : ∀ c, Decidable (s.Stray c)
  | .read .eof => inferInstanceAs (Decidable (0 < s.timer.due))
  | .read (.bytes _ _) => isFalse id
  | .accept _ => isFalse id
  | .elapse _ => isFalse id
  | .process _ => isFalse id

/-- A connection ends while a tick is queued exactly if its timer is stopped then. -/
theorem stray_iff {s : Server σ M} {c : Completion} : s.Stray c ↔ Periodic.Stray s.periodic c.op := by
  cases c with
  | accept error => cases error <;> exact ⟨fun h => absurd h id, fun h => nomatch h.1⟩
  | elapse now => exact ⟨fun h => absurd h id, fun h => nomatch h.1⟩
  | process error => cases error <;> exact ⟨fun h => absurd h id, fun h => nomatch h.1⟩
  | read r =>
    cases r with
    | eof => exact ⟨fun h => ⟨rfl, h⟩, fun h => h.2⟩
    | bytes bs rest => exact ⟨fun h => absurd h id, fun h => nomatch h.1⟩

/-! ## What a handler asks of the session -/

end Server

/-- A call of a virtual function of the session. -/
inductive Call
  | setLogger
  | packet (p : Mem) (len : ℕ)
  | marketLogic
  | disconnect

/-- The calls that a handler makes. -/
def Completion.calls (P : Protocol) : Completion → List Call
  | .accept false => [.setLogger]
  | .read .eof => [.disconnect]
  | .read (.bytes bs behind) =>
    (Framing.frames P (Mem.write bs behind) bs.length 0).map fun p => .packet p.1 p.2
  | .process false => [.marketLogic]
  | _ => []

/-- The log calls of a handler stay in their buffers. -/
def Completion.Logs (P : Protocol) : Completion → Prop
  | .read (.bytes bs behind) => P.Logs bs behind
  | _ => True

instance (P : Protocol) : ∀ c : Completion, Decidable (c.Logs P)
  | .read (.bytes bs behind) => inferInstanceAs (Decidable (P.Logs bs behind))
  | .read .eof => isTrue trivial
  | .accept _ => isTrue trivial
  | .elapse _ => isTrue trivial
  | .process _ => isTrue trivial

/-- The handler writes what is pending. -/
def Completion.flushes : Completion → Bool
  | .read (.bytes _ _) => true
  | .process false => true
  | _ => false

variable {σ M : Type}

def Call.run (C : MarketClass σ M) (s : σ) : Call → Except String σ
  | .setLogger => .ok (C.setLogger s)
  | .packet p len => C.handlePacket s p len
  | .marketLogic => .ok (C.marketLogic s)
  | .disconnect => .ok (C.disconnect s)

/-- `behind ms s` is the session `s` with `ms` before all that is pending, and no call of the session
depends on what is pending. -/
structure Outbox (C : MarketClass σ M) (behind : List M → σ → σ) : Prop where
  cleared : ∀ s, C.pending (C.clear s) = []
  setLogger : ∀ s, C.pending (C.setLogger s) = C.pending s
  disconnect : ∀ s, C.pending (C.disconnect s) = C.pending s
  clear : ∀ ms s, behind (ms ++ C.pending s) (C.clear s) = behind ms s
  call : ∀ ms s c, Call.run C (behind ms s) c = (Call.run C s c).map (behind ms)

/-- A session that handles every packet once its logger is set. -/
structure Ready (C : MarketClass σ M) (ready : σ → Prop) : Prop where
  setLogger : ∀ s, ready (C.setLogger s)
  handlePacket : ∀ s p len, ready s → ∃ t, C.handlePacket s p len = .ok t ∧ ready t
  marketLogic : ∀ s, ready s → ready (C.marketLogic s)
  clear : ∀ s, ready s → ready (C.clear s)

namespace Server

variable {P : Protocol} {C : MarketClass σ M} {behind : List M → σ → σ} {ready : σ → Prop}

/-- The session as it would be if nothing had ever been written. -/
def whole (behind : List M → σ → σ) (s : Server σ M) : σ := behind s.messages s.market

/-- Calls one after the other send behind what waits already. -/
theorem foldlM_behind (hO : Outbox C behind) (ms : List M) (s : σ) (cs : List Call) :
    cs.foldlM (Call.run C) (behind ms s) = (cs.foldlM (Call.run C) s).map (behind ms) := by
  induction cs generalizing s with
  | nil => rfl
  | cons c cs ih =>
    rw [List.foldlM_cons, List.foldlM_cons, hO.call]
    cases Call.run C s c with
    | error e => rfl
    | ok t => exact ih t

/-- Writing moves messages from the session to the socket and changes nothing else. -/
theorem whole_send (hO : Outbox C behind) (s : Server σ M) :
    (send C s).whole behind = s.whole behind := by
  have hmessages : (send C s).messages = s.messages ++ C.pending s.market := by
    unfold messages send
    rw [List.map_append, List.map_map]
    exact congrArg _ (List.map_id _)
  unfold whole
  rw [hmessages]
  exact hO.clear _ _

/-- A handler that does not throw does to the whole session what its calls do. -/
theorem calls_step (hO : Outbox C behind) {s : Server σ M} {c : Completion}
    (h : (step P C s c).ended = none) :
    (c.calls P).foldlM (Call.run C) (s.whole behind) = .ok ((step P C s c).whole behind) := by
  unfold whole
  rw [foldlM_behind hO]
  cases c with
  | accept error =>
    cases error with
    | false => rfl
    | true => rfl
  | elapse now => rfl
  | process error =>
    cases error with
    | false => exact congrArg Except.ok (whole_send hO { s with market := C.marketLogic s.market }).symm
    | true => rfl
  | read r =>
    cases r with
    | eof => rfl
    | bytes bs rest =>
      simp only [step, read] at h ⊢
      revert h
      rcases hread : TcpServer.read P C.toSessionClass s.market (.bytes bs rest) with e | t
      · exact fun h => nomatch h
      · intro _
        have hcalls : ((Completion.read (.bytes bs rest)).calls P).foldlM (Call.run C) s.market = .ok t := by
          unfold Completion.calls
          rw [List.foldlM_map]
          exact (read_eq_ok_iff.mp hread).2
        rw [hcalls]
        exact congrArg Except.ok (whole_send hO { s with market := t }).symm

/-- A handler leaves nothing pending, or what it has found. -/
theorem pending_step (hO : Outbox C behind) {s : Server σ M} {c : Completion}
    (h : (step P C s c).ended = none) :
    C.pending (step P C s c).market = if c.flushes then [] else C.pending s.market := by
  cases c with
  | accept error =>
    cases error with
    | true => rfl
    | false => exact hO.setLogger _
  | elapse now => rfl
  | process error =>
    cases error with
    | true => rfl
    | false => exact hO.cleared _
  | read r =>
    cases r with
    | eof => exact hO.disconnect _
    | bytes bs rest =>
      simp only [step, read] at h ⊢
      revert h
      cases TcpServer.read P C.toSessionClass s.market (.bytes bs rest) with
      | error e => exact fun h => nomatch h
      | ok t => exact fun _ => hO.cleared t

/-! ## Accepts, reads and connections -/

/-- The socket is open exactly while a read is outstanding, an accept is outstanding only while it is
closed, the session of an open socket handles packets, and the messages are written to one connection
after the other. -/
structure Sound (ready : σ → Prop) (s : Server σ M) : Prop where
  ended : s.ended = none
  connection : s.connection.isSome = s.reading
  accepting : s.accepting = true → s.reading = false
  ready : s.reading = true → ready s.market
  current : ∀ n, s.connection = some n → n + 1 = s.connections
  sorted : (s.written.filterMap Prod.fst).Pairwise (· ≤ ·)
  below : ∀ n ∈ s.written.filterMap Prod.fst, n < s.connections

/-- A new server is sound. -/
theorem sound_new (market : σ) (now : ℤ) : Sound ready (new market now : Server σ M) where
  ended := rfl
  connection := rfl
  accepting _ := rfl
  ready h := nomatch h
  current _ h := nomatch h
  sorted := List.Pairwise.nil
  below _ h := nomatch h

/-- All packets of a read are handled, if they are logged. -/
theorem read_ready (hC : Ready C ready) {s : σ} (hs : ready s) {bs : List UInt8} {rest : Mem}
    (hlogs : P.Logs bs rest) :
    ∃ t, TcpServer.read P C.toSessionClass s (.bytes bs rest) = .ok t ∧ ready t := by
  simp only [read_eq_ok_iff, and_iff_right hlogs]
  generalize Framing.frames P (Mem.write bs rest) bs.length 0 = ps
  induction ps generalizing s with
  | nil => exact ⟨s, rfl, hs⟩
  | cons p ps ih =>
    obtain ⟨t, ht, hready⟩ := hC.handlePacket s p.1 p.2 hs
    rw [List.foldlM_cons, ht]
    exact ih hready

/-- Writing keeps a server sound. -/
theorem Sound.send (hC : Ready C ready) {s : Server σ M} (h : Sound ready s) :
    Sound ready (send C s) := by
  have htags : ((Server.send C s).written.filterMap Prod.fst) = s.written.filterMap Prod.fst ++
      ((C.pending s.market).map (s.connection, ·)).filterMap Prod.fst :=
    List.filterMap_append
  have hnew : ∀ n ∈ ((C.pending s.market).map (s.connection, ·)).filterMap Prod.fst,
      s.connection = some n := by
    intro n hn
    obtain ⟨x, hx, htag⟩ := List.mem_filterMap.mp hn
    obtain ⟨m, -, rfl⟩ := List.mem_map.mp hx
    exact htag
  refine ⟨h.ended, h.connection, h.accepting, fun hr => hC.clear _ (h.ready hr), h.current, ?_, ?_⟩
  · rw [htags, List.pairwise_append]
    refine ⟨h.sorted, List.pairwise_of_forall_mem_list fun a ha b hb => ?_, fun a ha b hb => ?_⟩
    · exact (Option.some.inj ((hnew a ha).symm.trans (hnew b hb))).le
    · have hlt := h.below a ha
      have hcurrent := h.current b (hnew b hb)
      omega
  · intro n hn
    rcases List.mem_append.mp (htags ▸ hn) with hold | hadded
    · exact h.below n hold
    · exact (Nat.lt_succ_self n).trans_eq (h.current n (hnew n hadded))

/-- What every handler keeps that returns. -/
theorem Sound.step (hC : Ready C ready) {s : Server σ M} {c : Completion} (h : Sound ready s)
    (hc : s.Enabled c) (hlogs : c.Logs P) : Sound ready (step P C s c) := by
  cases c with
  | accept error =>
    have haccepting : s.accepting = true := hc
    cases error with
    | true =>
      exact ⟨h.ended, h.connection, fun hfalse => (nomatch hfalse), h.ready, h.current, h.sorted, h.below⟩
    | false =>
      refine ⟨h.ended, rfl, fun hfalse => (nomatch hfalse), fun _ => hC.setLogger _, ?_, h.sorted, ?_⟩
      · rintro n hn
        exact congrArg (· + 1) (Option.some.inj hn).symm
      · exact fun n hn => Nat.lt_succ_of_lt (h.below n hn)
  | elapse now => exact ⟨h.ended, h.connection, h.accepting, h.ready, h.current, h.sorted, h.below⟩
  | process error =>
    cases error with
    | true => exact ⟨h.ended, h.connection, h.accepting, h.ready, h.current, h.sorted, h.below⟩
    | false =>
      have hticked : Sound ready { s with market := C.marketLogic s.market, timer := s.timer.take } :=
        ⟨h.ended, h.connection, h.accepting, fun hr => hC.marketLogic _ (h.ready hr), h.current,
          h.sorted, h.below⟩
      have hsent := hticked.send hC
      exact ⟨hsent.ended, hsent.connection, hsent.accepting, hsent.ready, hsent.current, hsent.sorted,
        hsent.below⟩
  | read r =>
    have hreading : s.reading = true := hc
    cases r with
    | eof =>
      exact ⟨h.ended, rfl, fun _ => rfl, fun hfalse => (nomatch hfalse),
        fun _ hfalse => (nomatch hfalse), h.sorted, h.below⟩
    | bytes bs rest =>
      obtain ⟨t, ht, hready⟩ := read_ready hC (h.ready hreading) hlogs
      have hhandled : Sound ready { s with market := t } :=
        ⟨h.ended, h.connection, h.accepting, fun _ => hready, h.current, h.sorted, h.below⟩
      have hsent := hhandled.send hC
      simp only [Server.step, Server.read, ht]
      exact ⟨hsent.ended, hsent.connection.trans hreading, fun ha => absurd hreading
        (Bool.eq_false_iff.mp (h.accepting ha)), fun _ => hsent.ready hreading, hsent.current,
        hsent.sorted, hsent.below⟩

/-- The only handlers that end the program are reads with a log call that leaves its buffer. -/
theorem ended_step_iff (hC : Ready C ready) {s : Server σ M} {c : Completion} (h : Sound ready s)
    (hc : s.Enabled c) : (step P C s c).ended = none ↔ c.Logs P := by
  refine ⟨fun hended => ?_, fun hlogs => (h.step hC hc hlogs).ended⟩
  cases c with
  | read r =>
    cases r with
    | eof => trivial
    | bytes bs rest =>
      simp only [step, read] at hended
      revert hended
      rcases hread : TcpServer.read P C.toSessionClass s.market (.bytes bs rest) with e | t
      · exact fun hended => nomatch hended
      · exact fun _ => (read_eq_ok_iff.mp hread).1
  | _ => trivial

/-- A server listens or reads. -/
def Serving (s : Server σ M) : Prop := s.accepting = !s.reading

/-- An accept that fails is not made again, and nothing else stops a server. -/
theorem serving_step {s : Server σ M} {c : Completion} (h : Sound ready s) (hc : s.Enabled c)
    (hended : (step P C s c).ended = none) :
    (step P C s c).Serving ↔ s.Serving ∧ c ≠ .accept true := by
  have haccepting := h.accepting
  cases c with
  | accept error =>
    have ha : s.accepting = true := hc
    have hr := haccepting ha
    cases error with
    | true => exact iff_of_false (by simp [Serving, step, accept, hr]) fun hboth => hboth.2 rfl
    | false => exact iff_of_true rfl ⟨by simp [Serving, ha, hr], fun hfalse => nomatch hfalse⟩
  | elapse now => exact (and_iff_left fun hfalse => nomatch hfalse).symm
  | process error =>
    cases error with
    | true => exact (and_iff_left fun hfalse => nomatch hfalse).symm
    | false => exact (and_iff_left fun hfalse => nomatch hfalse).symm
  | read r =>
    -- a read is outstanding, so no accept is
    have hr : s.reading = true := hc
    have ha : s.accepting = false := by
      cases haccept : s.accepting with
      | false => rfl
      | true => exact nomatch hr.symm.trans (haccepting haccept)
    have hserving : s.Serving ∧ Completion.read r ≠ .accept true :=
      ⟨by simp [Serving, ha, hr], fun hfalse => nomatch hfalse⟩
    cases r with
    | eof => exact iff_of_true rfl hserving
    | bytes bs rest =>
      refine iff_of_true ?_ hserving
      simp only [step, read] at hended ⊢
      revert hended
      cases TcpServer.read P C.toSessionClass s.market (.bytes bs rest) with
      | error e => exact fun hfalse => nomatch hfalse
      | ok t => exact fun _ => ha

/-! ## Ticks -/

/-- What can be the next handler can be the next operation of the timer. -/
theorem enabled_op {s : Server σ M} {c : Completion} (h : Sound ready s) (hc : s.Enabled c) :
    Periodic.Enabled s.periodic c.op := by
  cases c with
  | accept error =>
    cases error with
    | true => trivial
    | false => exact h.connection.trans (h.accepting hc)
  | elapse now => trivial
  | process error =>
    cases error with
    | true => exact hc
    | false => exact hc
  | read r =>
    cases r with
    | eof => exact h.connection.trans hc
    | bytes bs rest => trivial

/-- A handler writes to the connection that it finds, and nothing without one as long as the timer has
one handler for each connection. -/
theorem written_step {s : Server σ M} {c : Completion} (h : Sound ready s) (hc : s.Enabled c)
    (hsingle : s.periodic.Single) :
    ∃ ms : List M, (step P C s c).written = s.written ++ ms.map (s.connection, ·) ∧
      (ms ≠ [] → s.connection.isSome = true) := by
  have hnone : ∀ {t : Server σ M}, t.written = s.written → ∃ ms : List M,
      t.written = s.written ++ ms.map (s.connection, ·) ∧ (ms ≠ [] → s.connection.isSome = true) :=
    fun ht => ⟨[], ht.trans (List.append_nil _).symm, fun hne => absurd rfl hne⟩
  cases c with
  | accept error =>
    cases error with
    | true => exact hnone rfl
    | false => exact hnone rfl
  | elapse now => exact hnone rfl
  | process error =>
    cases error with
    | true => exact hnone rfl
    | false =>
      refine ⟨C.pending (C.marketLogic s.market), rfl, fun _ => ?_⟩
      -- a tick that is queued belongs to an open connection
      have hdue : 0 < s.timer.due := hc
      have hle : s.timer.due ≤ s.timer.outstanding := Nat.le_add_left ..
      have hrunning : s.timer.outstanding = s.connection.isSome.toNat := hsingle
      cases hopen : s.connection.isSome with
      | true => rfl
      | false =>
        rw [hopen] at hrunning
        exact absurd hrunning (by rw [Bool.toNat_false]; omega)
  | read r =>
    cases r with
    | eof => exact hnone rfl
    | bytes bs rest =>
      have hopen : s.connection.isSome = true := h.connection.trans hc
      simp only [step, read]
      split
      · exact hnone rfl
      · rename_i t _
        exact ⟨C.pending t, rfl, fun _ => hopen⟩

end Server

end TcpServer

end Evtsim
