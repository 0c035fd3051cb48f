import Evtsim.Boe.Emission
import Evtsim.Ouch.Expiry

/-!
# The login of a BOE member

There is no logout: a login lasts until the connection ends. `login_until_disconnect` says so for whole
runs and accounts for every `LoginResponse`; `serverHeartbeats_le` is as for OUCH.
-/

namespace Evtsim

open Wire Boe Log Session

namespace BoeSession

variable {W : Type} (E : Env W)

/-! ## What a pass leaves alone -/

/-- The login state and the time of the last heartbeat stay. -/
abbrev SameLogin (s s' : BoeSession W) : Prop := Session.SameLogin (fun _ => ()) s s'

/-- A queued cancel does not touch the login. -/
theorem sameLogin_cancelStep (st : Pass W) (co : BoeCancelOrderReq) :
    SameLogin st.1 (cancelStep E st co).1 := by
  rcases cancelStep_cases E st co with ⟨-, w, m, h⟩ | ⟨-, w, m, -, h⟩ <;> rw [h] <;> exact ⟨rfl, rfl, rfl⟩

/-- A queued modification does not touch the login. -/
theorem sameLogin_modifyStep (st : Pass W) (mo : BoeModifyOrderReq) :
    SameLogin st.1 (modifyStep E st mo).1 := by
  rcases modifyStep_cases E st mo with ⟨-, h⟩ | ⟨o, -, w, A, bo, m, -, -, -, h⟩ <;> rw [h] <;>
    exact ⟨rfl, rfl, rfl⟩

/-- A visit does not touch the login. -/
theorem sameLogin_executionStep (st : Pass W) (k : Key) :
    SameLogin st.1 (executionStep E st k).1 := by
  rcases executionStep_cases E st k with ⟨-, h⟩ | ⟨o, -, w, ⟨-, h⟩ | ⟨-, -, h | ⟨exe, m, -, -, -, -,
    -, h⟩⟩ | ⟨-, -, h⟩⟩ <;> rw [h] <;> exact ⟨rfl, rfl, rfl⟩

/-- A step of `cancel_all` does not touch the login. -/
theorem sameLogin_cancelAllStep (st : BoeSession W × ℕ) (k : Key) :
    SameLogin st.1 (cancelAllStep E st k).1 := by
  rcases cancelAllStep_cases E st k with ⟨-, h⟩ | ⟨o, -, -, w, m, -, h⟩ <;> rw [h] <;>
    exact ⟨rfl, rfl, rfl⟩

/-- All of a tick but its start. -/
theorem sameLogin_passes (s : BoeSession W) :
    SameLogin s (executionLogic E (modifyLogic E (cancelLogic E s))) := by
  have hcancel := Session.sameLogin_cancelLogic (sameLogin_cancelStep E) s
  have hmodify := Session.sameLogin_modifyLogic (sameLogin_modifyStep E) (cancelLogic E s)
  exact (hcancel.trans hmodify).trans
    (Session.sameLogin_executionLogic E (sameLogin_executionStep E) _)

/-- `cancel_all` does not touch the login. -/
theorem sameLogin_cancelAll (s : BoeSession W) : SameLogin s (cancelAll E s).1 :=
  Session.sameLogin_cancelAll E (sameLogin_cancelAllStep E) s

/-- The start of a tick sends a heartbeat, at the time that it reads then, if a member is logged in and
a second has gone by. -/
theorem heartbeatLogic_cases (s : BoeSession W) :
    (∃ w, heartbeatLogic E s = s.inEnv w) ∨
    s.state = .loggedIn ∧ 1 ≤ (E.time s.env).1 - s.lastSendHeartbeat ∧
      heartbeatLogic E s = { s with lastSendHeartbeat := (E.time (E.time s.env).2).1 }.emit
        (E.time (E.time s.env).2).2 .serverHeartbeat :=
  Session.heartbeatLogic_cases E OutMsg.serverHeartbeat s

/-! ## Requests -/

/-- The answer to a login request. -/
def loginAnswer (s : BoeSession W) : LoginResponseStatus :=
  if (E.gate .login s.env).1 = false then .sessionDisabled
  else if s.state ≠ .notLoggedIn then .sessionInUse
  else .accepted

/-- A login request is answered as `loginAnswer` says, and logs a member in if that is an acceptance. -/
theorem handleLoginRequest_eq (s : BoeSession W) (req : LoginRequest) :
    ∃ w m, m.status = (loginAnswer E s).code ∧ handleLoginRequest E s req =
      { s.emit w (.loginResponse m) with
        state := if loginAnswer E s = .accepted then .loggedIn else s.state } := by
  unfold handleLoginRequest loginAnswer
  dsimp only
  rcases hgate : (E.gate .login s.env).1 with _ | _
  · simp only [Bool.not_false, if_true]
    exact ⟨_, _, rfl, rfl⟩
  simp only [Bool.not_true, Bool.false_eq_true, if_false]
  by_cases hstate : s.state ≠ .notLoggedIn
  · rw [if_pos hstate]
    simp only [if_pos hstate]
    exact ⟨_, _, rfl, rfl⟩
  · rw [if_neg hstate]
    simp only [if_neg hstate]
    exact ⟨_, _, rfl, rfl⟩

/-- Only a login request changes the login. -/
theorem handle_login (s : BoeSession W) (r : Request) :
    (handle E s r).lastSendHeartbeat = s.lastSendHeartbeat ∧
      ((∀ req, r ≠ .login req) → (handle E s r).state = s.state) := by
  cases r with
  | login req =>
    obtain ⟨w, m, -, h⟩ := handleLoginRequest_eq E s req
    rw [handle, h]
    exact ⟨rfl, fun hr => absurd rfl (hr req)⟩
  | heartbeat => exact ⟨rfl, fun _ => rfl⟩
  | enter no =>
    rcases enterOrder_cases E s no with ⟨-, w, m, h⟩ | ⟨-, w, d, m, -, -, -, h⟩ <;> rw [handle, h] <;>
      exact ⟨rfl, fun _ => rfl⟩
  | cancel co =>
    rcases cancelOrder_cases E s co with ⟨-, h⟩ | ⟨-, w, ⟨-, h⟩ | ⟨-, m, h⟩⟩ <;> rw [handle, h] <;>
      exact ⟨rfl, fun _ => rfl⟩
  | modify mo =>
    rcases modifyOrder_cases E s mo with ⟨-, w, m, h⟩ | ⟨-, -, w, h⟩ <;> rw [handle, h] <;>
      exact ⟨rfl, fun _ => rfl⟩

def Request.isLogin : Request → Bool
  | .login _ => true
  | _ => false

/-- The event is a login request. -/
def asksLogin : Event → Bool
  | .packet p => (request p).any Request.isLogin
  | _ => false

/-- A packet asks for a login exactly if it is a login request. -/
theorem asksLogin_packet {p : Mem} :
    asksLogin (.packet p) = true ↔ ∃ req, request p = some (.login req) := by
  rw [asksLogin]
  rcases request p with _ | r
  · simp
  · cases r <;> simp [Request.isLogin]

/-- A login request is granted. -/
def Grants (s : BoeSession W) (e : Event) : Prop :=
  asksLogin e = true ∧ loginAnswer E s = .accepted

/-- The end of the connection. -/
def Leaves (_ : BoeSession W) (e : Event) : Prop := e = .disconnect

/-- An event logs a member in, or leaves one logged in. -/
theorem loggedIn_step_iff (s : BoeSession W) (e : Event) :
    (step E s e).state = .loggedIn ↔ Grants E s e ∨ s.state = .loggedIn ∧ ¬ Leaves s e := by
  have hstays : ∀ {s' : BoeSession W}, asksLogin e ≠ true → e ≠ .disconnect → s'.state = s.state →
      (s'.state = .loggedIn ↔ Grants E s e ∨ s.state = .loggedIn ∧ ¬ Leaves s e) := by
    intro s' hasks hleaves hs'
    rw [hs']
    exact ⟨fun h => .inr ⟨h, hleaves⟩, fun h => (h.resolve_left fun hg => hasks hg.1).1⟩
  cases e with
  | marketLogic =>
    refine hstays Bool.false_ne_true (by rintro ⟨⟩) ?_
    have hbeat : (heartbeatLogic E s).state = s.state := by
      rcases heartbeatLogic_cases E s with ⟨w, h⟩ | ⟨-, -, h⟩ <;> rw [h] <;> rfl
    exact (sameLogin_passes E (heartbeatLogic E s)).state.trans hbeat
  | cancelAll => exact hstays Bool.false_ne_true (by rintro ⟨⟩) (sameLogin_cancelAll E s).state
  | disconnect =>
    refine iff_of_false (by rintro ⟨⟩) ?_
    rintro (h | ⟨-, h⟩)
    · exact absurd h.1 Bool.false_ne_true
    · exact h rfl
  | packet p =>
    rcases step_packet E s p with ⟨hr, hstep⟩ | ⟨r, hr, hstep⟩
    · -- nobody handles the packet
      refine hstays (fun hasks => ?_) (by rintro ⟨⟩) (congrArg Session.state hstep)
      obtain ⟨req, hreq⟩ := asksLogin_packet.mp hasks
      cases hr.symm.trans hreq
    · by_cases hlogin : ∃ req, r = .login req
      · -- a login request, which is granted or refused
        obtain ⟨req, rfl⟩ := hlogin
        obtain ⟨w, m, -, h⟩ := handleLoginRequest_eq E s req
        rw [hstep, handle, h]
        have hleaves : ¬ Leaves s (.packet p) := by rintro ⟨⟩
        by_cases hacc : loginAnswer E s = .accepted
        · exact iff_of_true (if_pos hacc) (.inl ⟨asksLogin_packet.mpr ⟨req, hr⟩, hacc⟩)
        · show (if loginAnswer E s = .accepted then SessionState.loggedIn else s.state) = _ ↔ _
          rw [if_neg hacc]
          exact ⟨fun h => .inr ⟨h, hleaves⟩, fun h => (h.resolve_left fun hg => hacc hg.2).1⟩
      · -- every other request leaves the login as it is
        rw [hstep]
        refine hstays (fun hasks => ?_) (by rintro ⟨⟩)
          ((handle_login E s r).2 (not_exists.mp hlogin))
        obtain ⟨req, hreq⟩ := asksLogin_packet.mp hasks
        exact hlogin ⟨req, Option.some.inj (hr.symm.trans hreq)⟩

/-- A login has been granted in the run, and the connection has not ended since. -/
def LoggedInBy (s : BoeSession W) (es : List Event) : Prop :=
  Machine.Latched (step E) (Grants E) Leaves s es

/-- A session is logged in exactly if its run has let a login through and no disconnect has followed. -/
theorem loggedIn_run_iff (w : W) (es : List Event) :
    (run E w es).state = .loggedIn ↔ LoggedInBy E (init E w) es :=
  Machine.latched_run_iff (P := fun s : BoeSession W => s.state = .loggedIn) (loggedIn_step_iff E)
    (by rintro ⟨⟩) es

/-! ## What the member sees of it -/

/-- The status of a `LoginResponse`. -/
def loginStatus : Boe.OutMsg → Option UInt8
  | .loginResponse m => some m.status
  | _ => none

/-- What an event adds to the messages. -/
def sent (s : BoeSession W) (e : Event) : List Boe.OutMsg :=
  added s.pendingOutMessages (step E s e).pendingOutMessages

/-- A message of another type has no login status. -/
theorem loginStatus_of_ne {m : Boe.OutMsg} (h : m.type ≠ .loginResponse) : loginStatus m = none := by
  cases m with
  | loginResponse m => exact absurd rfl h
  | _ => rfl

/-- What an event sends is of the types that it may send. -/
theorem sent_of_emits {types : List OutMsgType} {s : BoeSession W} {e : Event}
    (h : Emits types s (step E s e)) : ∀ m ∈ sent E s e, m.type ∈ types := by
  obtain ⟨ms, hout, hms⟩ := h
  intro m hm
  unfold sent at hm
  rw [hout, added_append] at hm
  exact hms m hm

/-- The types of the messages of an event. -/
def sentTypes : Event → List OutMsgType
  | .packet p => ((request p).map answerTypes).getD []
  | .marketLogic => [.serverHeartbeat, .cancelRejected, .orderCanceled, .orderModified, .orderExecution]
  | .cancelAll => [.orderCanceled]
  | .disconnect => []

/-- Every event sends messages of its types only. -/
theorem emits_step (s : BoeSession W) (e : Event) : Emits (sentTypes e) s (step E s e) := by
  cases e with
  | packet p =>
    rcases step_packet E s p with ⟨hr, h⟩ | ⟨r, hr, h⟩ <;> rw [h, sentTypes, hr]
    · exact emits_of_out rfl
    · exact emits_handle E s r
  | marketLogic => exact emits_marketLogic E s
  | cancelAll => exact emits_cancelAll E s
  | disconnect => exact emits_of_out rfl

/-- A login request gets one response, and nothing else does. -/
theorem loginStatus_sent (s : BoeSession W) (e : Event) :
    (sent E s e).filterMap loginStatus = if asksLogin e then [(loginAnswer E s).code] else [] := by
  by_cases hasks : asksLogin e = true
  · rw [if_pos hasks]
    cases e with
    | packet p =>
      obtain ⟨req, hreq⟩ := asksLogin_packet.mp hasks
      rcases step_packet E s p with ⟨hr, -⟩ | ⟨r, hr, hstep⟩
      · cases hr.symm.trans hreq
      obtain rfl : r = .login req := Option.some.inj (hr.symm.trans hreq)
      obtain ⟨w, m, hm, h⟩ := handleLoginRequest_eq E s req
      unfold sent
      rw [hstep, handle, h]
      show (added s.pendingOutMessages (s.pendingOutMessages ++ [.loginResponse m])).filterMap _ = _
      rw [added_append]
      exact congrArg (fun b => [b]) hm
    | _ => exact absurd hasks Bool.false_ne_true
  · rw [if_neg hasks, List.filterMap_eq_nil_iff]
    intro m hm
    refine loginStatus_of_ne fun htype => ?_
    have hmem := sent_of_emits E (emits_step E s e) m hm
    rw [htype] at hmem
    cases e with
    | packet p =>
      rw [sentTypes] at hmem
      rcases hr : request p with _ | r
      · rw [hr] at hmem
        exact absurd hmem List.not_mem_nil
      · rw [hr] at hmem
        cases r with
        | login req => exact hasks (asksLogin_packet.mpr ⟨req, hr⟩)
        | _ => simp [answerTypes] at hmem
    | _ => simp [sentTypes] at hmem

/-- Without a login no heartbeat is sent. -/
theorem loggedIn_of_heartbeat {s : BoeSession W} {e : Event}
    (h : ∃ m ∈ sent E s e, m.type = .serverHeartbeat) : s.state = .loggedIn := by
  obtain ⟨m, hm, htype⟩ := h
  have hmem := sent_of_emits E (emits_step E s e) m hm
  rw [htype] at hmem
  cases e with
  | marketLogic =>
    rcases heartbeatLogic_cases E s with ⟨w, h⟩ | ⟨hin, -⟩
    · -- the rest of the tick sends no heartbeats
      have hpasses : Emits [.cancelRejected, .orderCanceled, .orderModified, .orderExecution] s
          (marketLogic E s) := by
        have hcancel := (emits_cancelLogic E (s.inEnv w)).mono
          (l := [.cancelRejected, .orderCanceled, .orderModified, .orderExecution]) (by decide)
        have hmodify := (emits_modifyLogic E (cancelLogic E (s.inEnv w))).mono
          (l := [.cancelRejected, .orderCanceled, .orderModified, .orderExecution]) (by decide)
        have hexecute := (emits_executionLogic E (modifyLogic E (cancelLogic E (s.inEnv w)))).mono
          (l := [.cancelRejected, .orderCanceled, .orderModified, .orderExecution]) (by decide)
        unfold marketLogic
        rw [h]
        exact (hcancel.trans hmodify).trans hexecute
      have hnone := sent_of_emits E (e := .marketLogic) hpasses m hm
      rw [htype] at hnone
      exact absurd hnone (by decide)
    · exact hin
  | packet p =>
    rw [sentTypes] at hmem
    rcases hr : request p with _ | r
    · rw [hr] at hmem
      exact absurd hmem List.not_mem_nil
    · rw [hr] at hmem
      cases r <;> simp [answerTypes] at hmem
  | _ => simp [sentTypes] at hmem

/-- **The login protocol.** After every run a member is logged in exactly when a login has been granted
since the last end of a connection. Every login request gets one `LoginResponse`, which accepts just what
is granted, and nothing else gets any; heartbeats go only to a member who is logged in. -/
theorem login_until_disconnect (w : W) (es : List Event) :
    ((run E w es).state = .loggedIn ↔ LoggedInBy E (init E w) es) ∧
      ∀ e, (sent E (run E w es) e).filterMap loginStatus =
          (if asksLogin e then [(loginAnswer E (run E w es)).code] else []) ∧
        ((∃ m ∈ sent E (run E w es) e, m.type = .serverHeartbeat) → LoggedInBy E (init E w) es) :=
  ⟨loggedIn_run_iff E w es, fun e => ⟨loginStatus_sent E _ e, fun h =>
    (loggedIn_run_iff E w es).mp (loggedIn_of_heartbeat E h)⟩⟩

/-! ## Heartbeats -/

/-- The number of heartbeats. -/
def countHeartbeats (s : BoeSession W) : ℕ :=
  s.pendingOutMessages.countP fun m => m.type = .serverHeartbeat

/-- What sends other types only sends no heartbeat. -/
theorem countHeartbeats_emits {types : List OutMsgType} {s s' : BoeSession W} (h : Emits types s s')
    (htypes : .serverHeartbeat ∉ types) : countHeartbeats s' = countHeartbeats s :=
  h.countP fun _ hm => decide_eq_false fun heq => htypes (heq ▸ hm)

/-- **Heartbeats.** If no two readings of the clock in a row go back, `n` heartbeats take `n` seconds at
least. -/
theorem serverHeartbeats_le (htime : ∀ w, (E.time w).1 ≤ (E.time (E.time w).2).1) (w : W)
    (es : List Event) :
    (countHeartbeats (run E w es) : ℤ) ≤
      (run E w es).lastSendHeartbeat - (init E w).lastSendHeartbeat := by
  have hinit : (countHeartbeats (init E w) : ℤ) ≤
      (init E w).lastSendHeartbeat - (init E w).lastSendHeartbeat := by
    rw [Int.sub_self]
    exact Int.le_refl 0
  -- every heartbeat moves the time of the last one on by a second at least
  refine Machine.run_invariant (f := step E) (I := fun s => (countHeartbeats s : ℤ) ≤
    s.lastSendHeartbeat - (init E w).lastSendHeartbeat) (fun s e hs => ?_) hinit es
  cases e with
  | marketLogic =>
    have hlast := (sameLogin_passes E (heartbeatLogic E s)).lastSendHeartbeat
    have hcount : countHeartbeats (marketLogic E s) = countHeartbeats (heartbeatLogic E s) :=
      ((countHeartbeats_emits (emits_executionLogic E _) (by decide)).trans
        (countHeartbeats_emits (emits_modifyLogic E _) (by decide))).trans
        (countHeartbeats_emits (emits_cancelLogic E _) (by decide))
    show (countHeartbeats (marketLogic E s) : ℤ) ≤ (marketLogic E s).lastSendHeartbeat - _
    rw [hcount]
    unfold marketLogic
    rw [hlast]
    rcases heartbeatLogic_cases E s with ⟨w', h⟩ | ⟨-, hdue, h⟩ <;> rw [h]
    · exact hs
    · -- a heartbeat is due, and the clock is read again for its time
      have hclock := htime s.env
      have hone : countHeartbeats ({ s with lastSendHeartbeat := (E.time (E.time s.env).2).1 }.emit
          (E.time (E.time s.env).2).2 .serverHeartbeat) = countHeartbeats s + 1 := by
        unfold countHeartbeats
        rw [emit_out, List.countP_append]
        rfl
      rw [hone]
      show _ ≤ (E.time (E.time s.env).2).1 - _
      omega
  | cancelAll =>
    have hlast := (sameLogin_cancelAll E s).lastSendHeartbeat
    have hcount := countHeartbeats_emits (emits_cancelAll E s) (by decide)
    show (countHeartbeats (cancelAll E s).1 : ℤ) ≤ (cancelAll E s).1.lastSendHeartbeat - _
    rw [hlast, hcount]
    exact hs
  | disconnect => exact hs
  | packet p =>
    rcases step_packet E s p with ⟨-, hstep⟩ | ⟨r, -, hstep⟩ <;> rw [hstep]
    · exact hs
    · have hcount := countHeartbeats_emits (emits_handle E s r) (by cases r <;> simp [answerTypes])
      rw [(handle_login E s r).1, hcount]
      exact hs

/-- A member logs in, and is then served twice by a clock that moves on at every reading. -/
def servedTwice : List Event :=
  [bytesEvent (headerBytes 0x37 ++ List.replicate 64 0), .marketLogic, .marketLogic]

/-- Heartbeats are sent in that run, each in a second of its own. -/
theorem serverHeartbeats_le_ticking :
    0 < countHeartbeats (run OuchSession.tickingEnv 0 servedTwice) ∧
    (countHeartbeats (run OuchSession.tickingEnv 0 servedTwice) : ℤ) ≤
      (run OuchSession.tickingEnv 0 servedTwice).lastSendHeartbeat -
        (init OuchSession.tickingEnv 0).lastSendHeartbeat :=
  ⟨by decide +kernel, serverHeartbeats_le OuchSession.tickingEnv (fun w => Int.le_of_lt (Int.lt_succ w)) 0 _⟩

end BoeSession

end Evtsim
