import Evtsim.Ouch.Emission
import Evtsim.Ouch.Expiry

/-!
# The login of an OUCH client

Who is logged in is decided by three events: a login request that is granted, a logout request, and
the end of the connection. `login_protocol` says so for whole runs, and what it means for the messages.
Server heartbeats keep a second apart (`heartbeats_le`).
-/

namespace Evtsim

open Wire Ouch Log Session

namespace OuchSession

variable {W : Type} (E : Env W)

/-! ## What a pass leaves alone -/

/-- The login state, the logger and the time of the last heartbeat stay. -/
abbrev SameLogin (s s' : OuchSession W) : Prop := Session.SameLogin Own.l s s'

/-- A queued cancel does not touch the login. -/
theorem sameLogin_cancelStep (st : Pass W) (co : OuchCancelOrderReq) :
    SameLogin st.1 (cancelStep E st co).1 := by
  rcases cancelStep_cases E st co with ⟨-, w, m, h⟩ | ⟨o, -, -, ⟨-, w, m, -, -, h⟩ | ⟨-, -, w, h⟩ |
    ⟨-, -, w, m, -, -, h⟩⟩ <;> rw [h] <;> exact ⟨rfl, rfl, rfl⟩

/-- A queued modification does not touch the login. -/
theorem sameLogin_modifyStep (st : Pass W) (mo : OuchModifyOrderReq) :
    SameLogin st.1 (modifyStep E st mo).1 := by
  rcases modifyStep_cases E st mo with ⟨-, h⟩ | ⟨o, -, -, ⟨-, w, m, -, h⟩ | ⟨-, w, m, -, h⟩⟩ <;>
    rw [h] <;> exact ⟨rfl, rfl, rfl⟩

/-- A queued replacement does not touch the login. -/
theorem sameLogin_replaceStep (st : Pass W) (ro : OuchReplaceOrderReq) :
    SameLogin st.1 (replaceStep E st ro).1 := by
  rcases replaceStep_cases E st ro with ⟨-, w, m, -, -, h⟩ | ⟨-, w, m, A, -, -, -, h⟩ <;>
    rw [h] <;> exact ⟨rfl, rfl, rfl⟩

/-- A visit does not touch the login. -/
theorem sameLogin_executionStep (st : Pass W) (k : Key) :
    SameLogin st.1 (executionStep E st k).1 := by
  rcases executionStep_cases E st k with ⟨-, h⟩ | ⟨o, -, ⟨-, w, h⟩ | ⟨o', w, -, ⟨m, -, -, h⟩ |
    ⟨-, h⟩ | ⟨exe, m, -, -, -, -, h⟩ | h | h⟩⟩ <;> rw [h] <;> exact ⟨rfl, rfl, rfl⟩

/-- A step of `cancel_all` does not touch the login. -/
theorem sameLogin_cancelAllStep (st : OuchSession W × ℕ) (k : Key) :
    SameLogin st.1 (cancelAllStep E st k).1 := by
  rcases cancelAllStep_cases E st k with ⟨-, h⟩ | ⟨o, o', w, -, -, ⟨m, -, -, h⟩ | h⟩ <;> rw [h] <;>
    exact ⟨rfl, rfl, rfl⟩

/-- All of a tick but its start. -/
theorem sameLogin_passes (s : OuchSession W) :
    SameLogin s (executionLogic E (replaceLogic E (modifyLogic E (cancelLogic E s)))) := by
  have hreplace : ∀ s, SameLogin s (replaceLogic E s) := by
    intro s
    obtain ⟨hstate, hlast, hl⟩ := sameLogin_run (sameLogin_replaceStep E) (s, []) s.pendingReplace
    exact ⟨hstate, hlast, hl⟩
  have hcancel := Session.sameLogin_cancelLogic (sameLogin_cancelStep E) s
  have hmodify := Session.sameLogin_modifyLogic (sameLogin_modifyStep E) (cancelLogic E s)
  exact ((hcancel.trans hmodify).trans (hreplace _)).trans
    (Session.sameLogin_executionLogic E (sameLogin_executionStep E) _)

/-- `cancel_all` does not touch the login. -/
theorem sameLogin_cancelAll (s : OuchSession W) : SameLogin s (cancelAll E s).1 :=
  Session.sameLogin_cancelAll E (sameLogin_cancelAllStep E) s

/-- The start of a tick sends a heartbeat, at the time that it reads then, if a client is logged in and
a second has gone by. -/
theorem heartbeatLogic_cases (s : OuchSession W) :
    (∃ w, heartbeatLogic E s = s.inEnv w) ∨
    s.state = .loggedIn ∧ 1 ≤ (E.time s.env).1 - s.lastSendHeartbeat ∧
      heartbeatLogic E s = { s with lastSendHeartbeat := (E.time (E.time s.env).2).1 }.emit
        (E.time (E.time s.env).2).2 .serverHeartbeat :=
  Session.heartbeatLogic_cases E OutMsg.serverHeartbeat s

/-- A tick does not touch the login. -/
theorem marketLogic_login (s : OuchSession W) :
    (marketLogic E s).state = s.state ∧ (marketLogic E s).l = s.l := by
  have hpasses := sameLogin_passes E (heartbeatLogic E s)
  have hbeat : (heartbeatLogic E s).state = s.state ∧ (heartbeatLogic E s).l = s.l := by
    rcases heartbeatLogic_cases E s with ⟨w, h⟩ | ⟨-, -, h⟩ <;> rw [h] <;> exact ⟨rfl, rfl⟩
  exact ⟨hpasses.state.trans hbeat.1, hpasses.own.trans hbeat.2⟩

/-! ## Requests -/

/-- Only login and logout requests change the login. -/
theorem handle_login (s : OuchSession W) (r : Request) :
    (handle E s r).l = s.l ∧ (handle E s r).lastSendHeartbeat = s.lastSendHeartbeat ∧
      (r ≠ .login → r ≠ .logout → (handle E s r).state = s.state) := by
  cases r with
  | login =>
    refine ⟨?_, ?_, fun h => absurd rfl h⟩
    all_goals
      unfold handle handleLoginRequest
      dsimp only
      split
      · rfl
      split <;> rfl
  | logout => exact ⟨rfl, rfl, fun _ h => absurd rfl h⟩
  | heartbeat => exact ⟨rfl, rfl, fun _ _ => rfl⟩
  | enter eo =>
    rcases enterOrder_cases E s eo with ⟨-, w, h | ⟨m, h⟩⟩ | ⟨-, w, d, m, -, -, h⟩ <;>
      rw [handle, h] <;> exact ⟨rfl, rfl, fun _ _ => rfl⟩
  | replace ro =>
    rcases replaceOrder_cases E s ro with ⟨-, w, h⟩ | ⟨-, w, h⟩ <;> rw [handle, h] <;>
      exact ⟨rfl, rfl, fun _ _ => rfl⟩
  | cancel co =>
    rcases cancelOrder_cases E s co with ⟨-, w, h⟩ | ⟨-, -, w, h⟩ <;> rw [handle, h] <;>
      exact ⟨rfl, rfl, fun _ _ => rfl⟩
  | modify mo =>
    rcases modifyOrder_cases E s mo with ⟨-, w, h⟩ | ⟨-, -, w, h⟩ <;> rw [handle, h] <;>
      exact ⟨rfl, rfl, fun _ _ => rfl⟩

/-- A login request is granted: nobody is logged in and the gate is open. -/
def Grants (s : OuchSession W) : Event → Prop
  | .packet p => s.l = true ∧ request p = some .login ∧ s.state = .notLoggedIn ∧
      (E.gate .login s.env).1 = true
  | _ => False

/-- A logout request or the end of the connection. -/
def Leaves (s : OuchSession W) : Event → Prop
  | .packet p => s.l = true ∧ request p = some .logout
  | .disconnect => True
  | _ => False

/-- A login request is answered, and granted or not. -/
theorem handleLoginRequest_cases (s : OuchSession W) :
    (s.state = .notLoggedIn ∧ (E.gate .login s.env).1 = true ∧ ∃ w m,
      handleLoginRequest E s = { s with state := .loggedIn }.emit w (.loginAccepted m)) ∨
    ¬ (s.state = .notLoggedIn ∧ (E.gate .login s.env).1 = true) ∧ ∃ w r,
      handleLoginRequest E s = s.emit w (.loginRejected r) := by
  unfold handleLoginRequest
  by_cases hstate : s.state ≠ .notLoggedIn
  · rw [if_pos hstate]
    exact .inr ⟨fun h => hstate h.1, _, _, rfl⟩
  rw [if_neg hstate]
  dsimp only
  rcases hgate : (E.gate .login s.env).1 with _ | _
  · simp only [Bool.not_false, if_true]
    exact .inr ⟨fun h => Bool.noConfusion h.2, _, _, rfl⟩
  · simp only [Bool.not_true, Bool.false_eq_true, if_false]
    exact .inl ⟨not_not.mp hstate, trivial, _, _, rfl⟩

/-- An event logs a client in, or leaves one logged in. -/
theorem loggedIn_step_iff (s : OuchSession W) (e : Event) :
    (step E s e).state = .loggedIn ↔ Grants E s e ∨ s.state = .loggedIn ∧ ¬ Leaves s e := by
  cases e with
  | setLogger => exact ⟨fun h => .inr ⟨h, not_false⟩, fun h => (h.resolve_left not_false).1⟩
  | marketLogic =>
    show (marketLogic E s).state = _ ↔ _
    rw [(marketLogic_login E s).1]
    exact ⟨fun h => .inr ⟨h, not_false⟩, fun h => (h.resolve_left not_false).1⟩
  | cancelAll =>
    show (cancelAll E s).1.state = _ ↔ _
    rw [(sameLogin_cancelAll E s).state]
    exact ⟨fun h => .inr ⟨h, not_false⟩, fun h => (h.resolve_left not_false).1⟩
  | disconnect =>
    refine iff_of_false (by rintro ⟨⟩) ?_
    rintro (h | ⟨-, h⟩)
    · exact h
    · exact h trivial
  | packet p =>
    rcases step_packet E s p with ⟨hnone, hstep⟩ | ⟨r, hl, hr, hstep⟩ <;> rw [hstep]
    · -- nobody handles the packet
      have hno : ∀ r, ¬ (s.l = true ∧ request p = some r) := by
        rintro r ⟨hl, hr⟩
        rcases hnone with h | h
        · cases hl.symm.trans h
        · cases hr.symm.trans h
      refine ⟨fun h => .inr ⟨h, hno _⟩, ?_⟩
      rintro (⟨hl, hr, -⟩ | ⟨h, -⟩)
      · exact absurd ⟨hl, hr⟩ (hno _)
      · exact h
    · by_cases hlogin : r = .login
      · -- a login request, which is granted or refused
        subst hlogin
        have hstay : ¬ Leaves s (.packet p) := by
          rintro ⟨-, h⟩
          cases hr.symm.trans h
        rcases handleLoginRequest_cases E s with ⟨hout, hgate, w, m, h⟩ | ⟨hnot, w, r, h⟩ <;>
          rw [handle, h]
        · exact iff_of_true rfl (.inl ⟨hl, hr, hout, hgate⟩)
        · refine ⟨fun hin => .inr ⟨hin, hstay⟩, ?_⟩
          rintro (⟨-, -, hgrant⟩ | ⟨hin, -⟩)
          · exact absurd hgrant hnot
          · exact hin
      by_cases hlogout : r = .logout
      · -- a logout request, which ends the login
        subst hlogout
        refine iff_of_false (by rintro ⟨⟩) ?_
        rintro (⟨-, hr', -⟩ | ⟨-, hstay⟩)
        · cases hr.symm.trans hr'
        · exact hstay ⟨hl, hr⟩
      · -- every other request leaves the login as it is
        rw [(handle_login E s r).2.2 hlogin hlogout]
        refine ⟨fun h => .inr ⟨h, fun hleaves => ?_⟩, ?_⟩
        · exact hlogout (Option.some.inj (hr.symm.trans hleaves.2))
        · rintro (⟨-, hr', -⟩ | ⟨h, -⟩)
          · exact absurd (Option.some.inj (hr.symm.trans hr')) hlogin
          · exact h

/-- A login has been granted in the run, and nothing has ended it since. -/
def LoggedInBy (s : OuchSession W) (es : List Event) : Prop :=
  Machine.Latched (step E) (Grants E) Leaves s es

/-- A session is logged in exactly if its run has granted a login and the client has not left since. -/
theorem loggedIn_run_iff (w : W) (es : List Event) :
    (run E w es).state = .loggedIn ↔ LoggedInBy E (init E w) es :=
  Machine.latched_run_iff (P := fun s : OuchSession W => s.state = .loggedIn) (loggedIn_step_iff E)
    (by rintro ⟨⟩) es

/-! ## What the client sees of it -/

/-- The number of messages of a kind. -/
def countKind (kind : Kind) (s : OuchSession W) : ℕ :=
  s.pendingOutMessages.countP fun m => m.kind = kind

/-- A message sent counts for its kind. -/
theorem countKind_emit (kind : Kind) (s : OuchSession W) (w : W) (m : Ouch.OutMsg) :
    countKind kind (s.emit w m) = countKind kind s + if m.kind = kind then 1 else 0 := by
  unfold countKind
  rw [emit_out, List.countP_append, List.countP_singleton]
  simp only [decide_eq_true_eq]

/-- A function that sends other kinds. -/
theorem Emits.countKind {kinds : List Kind} {s s' : OuchSession W} (h : Emits kinds s s') {kind : Kind}
    (hkind : kind ∉ kinds) : countKind kind s' = countKind kind s :=
  h.countP fun _ hm => decide_eq_false fun heq => hkind (heq ▸ hm)

/-- Only logins and orders are answered at once. -/
theorem out_handle (s : OuchSession W) {r : Request} (hlogin : r ≠ .login) (henter : ∀ eo, r ≠ .enter eo) :
    (handle E s r).pendingOutMessages = s.pendingOutMessages := by
  cases r with
  | login => exact absurd rfl hlogin
  | logout => rfl
  | heartbeat => rfl
  | enter eo => exact absurd rfl (henter eo)
  | replace ro => rcases replaceOrder_cases E s ro with ⟨-, w, h⟩ | ⟨-, w, h⟩ <;> rw [handle, h] <;> rfl
  | cancel co => rcases cancelOrder_cases E s co with ⟨-, w, h⟩ | ⟨-, -, w, h⟩ <;> rw [handle, h] <;> rfl
  | modify mo => rcases modifyOrder_cases E s mo with ⟨-, w, h⟩ | ⟨-, -, w, h⟩ <;> rw [handle, h] <;> rfl

/-- A request other than a login is accepted or rejected. -/
theorem emits_handle_of_ne_login (s : OuchSession W) {r : Request} (hlogin : r ≠ .login) :
    Emits [.orderRejected, .orderAccepted] s (handle E s r) := by
  by_cases henter : ∃ eo, r = .enter eo
  · obtain ⟨eo, rfl⟩ := henter
    rcases enterOrder_cases E s eo with ⟨-, w, h | ⟨m, h⟩⟩ | ⟨-, w, d, m, -, -, h⟩ <;> rw [handle, h]
    · exact emits_of_out rfl
    · exact emits_emit rfl (by simp [OutMsg.kind])
    · exact emits_emit rfl (by simp [OutMsg.kind])
  · exact emits_of_out (out_handle E s hlogin (not_exists.mp henter))

/-- Without a login no order is accepted. -/
theorem emits_handle_loggedOut {s : OuchSession W} (hs : s.state ≠ .loggedIn) (r : Request) :
    Emits [.loginAccepted, .loginRejected, .orderRejected] s (handle E s r) := by
  by_cases hlogin : r = .login
  · subst hlogin
    rcases handleLoginRequest_cases E s with ⟨-, -, w, m, h⟩ | ⟨-, w, r, h⟩ <;> rw [handle, h]
    · exact emits_emit rfl (by simp [OutMsg.kind])
    · exact emits_emit rfl (by simp [OutMsg.kind])
  by_cases henter : ∃ eo, r = .enter eo
  · obtain ⟨eo, rfl⟩ := henter
    rcases enterOrder_cases E s eo with ⟨-, w, h | ⟨m, h⟩⟩ | ⟨hacc, -⟩
    · rw [handle, h]
      exact emits_of_out rfl
    · rw [handle, h]
      exact emits_emit rfl (by simp [OutMsg.kind])
    · exact absurd hacc.2.1 hs
  · exact emits_of_out (out_handle E s hlogin (not_exists.mp henter))

/-- The event sends a message of this kind. -/
def Sends (kind : Kind) (s : OuchSession W) (e : Event) : Prop :=
  ∃ m ∈ added s.pendingOutMessages (step E s e).pendingOutMessages, m.kind = kind

/-- What may send other kinds only does not send this one. -/
theorem not_sends_of_emits {kinds : List Kind} {s : OuchSession W} {e : Event}
    (h : Emits kinds s (step E s e)) {kind : Kind} (hkind : kind ∉ kinds) : ¬ Sends E kind s e := by
  obtain ⟨ms, hout, hms⟩ := h
  rintro ⟨m, hm, rfl⟩
  rw [hout, added_append] at hm
  exact hkind (hms m hm)

/-- An event that sends one message sends its kind and no other. -/
theorem sends_of_emit {kind : Kind} {s t : OuchSession W} {e : Event} {w : W} {m : Ouch.OutMsg}
    (h : step E s e = t.emit w m) (ht : t.pendingOutMessages = s.pendingOutMessages) :
    Sends E kind s e ↔ m.kind = kind := by
  unfold Sends
  rw [h, emit_out, ht, added_append]
  simp only [List.mem_singleton, exists_eq_left]

/-- A tick sends no heartbeat to a client who is not logged in. -/
theorem emits_marketLogic_loggedOut {s : OuchSession W} (hout : s.state = .notLoggedIn) :
    Emits [.cancelReject, .orderCanceled, .orderModified, .orderReplaced, .executed] s
      (marketLogic E s) := by
  have hpasses := emits_passes E (heartbeatLogic E s)
  rcases heartbeatLogic_cases E s with ⟨w, h⟩ | ⟨hin, -⟩
  · rw [h] at hpasses
    unfold marketLogic
    rw [h]
    exact hpasses
  · cases hin.symm.trans hout

/-- A `LoginAccepted` is sent exactly by the events that grant a login. -/
theorem sends_loginAccepted_iff (s : OuchSession W) (e : Event) :
    Sends E .loginAccepted s e ↔ Grants E s e := by
  cases e with
  | setLogger =>
    have hnone : Emits [] s (step E s .setLogger) := emits_of_out rfl
    exact iff_of_false (not_sends_of_emits E hnone (by simp)) id
  | disconnect =>
    have hnone : Emits [] s (step E s .disconnect) := emits_of_out rfl
    exact iff_of_false (not_sends_of_emits E hnone (by simp)) id
  | marketLogic => exact iff_of_false (not_sends_of_emits E (emits_marketLogic E s) (by simp)) id
  | cancelAll => exact iff_of_false (not_sends_of_emits E (emits_cancelAll E s) (by simp)) id
  | packet p =>
    rcases step_packet E s p with ⟨hnone, hstep⟩ | ⟨r, hl, hr, hstep⟩
    · have hemits : Emits [] s (step E s (.packet p)) := emits_of_out (by rw [hstep])
      refine iff_of_false (not_sends_of_emits E hemits (by simp)) ?_
      · rintro ⟨hl, hr, -⟩
        rcases hnone with h | h
        · cases hl.symm.trans h
        · cases hr.symm.trans h
    by_cases hlogin : r = .login
    · subst hlogin
      rcases handleLoginRequest_cases E s with ⟨hout, hgate, w, m, h⟩ | ⟨hnot, w, r, h⟩
      · exact iff_of_true ((sends_of_emit E (hstep.trans h) rfl).mpr rfl) ⟨hl, hr, hout, hgate⟩
      · refine iff_of_false (fun hsends => ?_) fun hgrants => hnot hgrants.2.2
        exact nomatch (sends_of_emit E (hstep.trans h) rfl).mp hsends
    · refine iff_of_false (not_sends_of_emits E (hstep ▸ emits_handle_of_ne_login E s hlogin) (by simp))
        fun hgrants => hlogin (Option.some.inj (hr.symm.trans hgrants.2.1))

/-- Without a login no order is accepted and no heartbeat is sent. -/
theorem loggedIn_of_sends {s : OuchSession W} {e : Event}
    (h : Sends E .orderAccepted s e ∨ Sends E .serverHeartbeat s e) : s.state = .loggedIn := by
  by_contra hin
  have hout : s.state = .notLoggedIn := by
    cases hs : s.state with
    | notLoggedIn => rfl
    | loggedIn => exact absurd hs hin
  have hnone : ∃ kinds, Emits kinds s (step E s e) ∧ .orderAccepted ∉ kinds ∧
      .serverHeartbeat ∉ kinds := by
    cases e with
    | setLogger => exact ⟨[], emits_of_out rfl, by simp, by simp⟩
    | disconnect => exact ⟨[], emits_of_out rfl, by simp, by simp⟩
    | marketLogic => exact ⟨_, emits_marketLogic_loggedOut E hout, by simp, by simp⟩
    | cancelAll => exact ⟨_, emits_cancelAll E s, by simp, by simp⟩
    | packet p =>
      rcases step_packet E s p with ⟨-, hstep⟩ | ⟨r, -, -, hstep⟩ <;> rw [hstep]
      · exact ⟨[], emits_of_out rfl, by simp, by simp⟩
      · exact ⟨_, emits_handle_loggedOut E hin r, by simp, by simp⟩
  obtain ⟨kinds, hemits, haccepted, hbeat⟩ := hnone
  rcases h with h | h
  · exact not_sends_of_emits E hemits haccepted h
  · exact not_sends_of_emits E hemits hbeat h

/-- **The login protocol.** After every run a client is logged in exactly when a login has been granted
since the last logout or end of a connection; a `LoginAccepted` is sent just by what grants a login, and
only to a client who is logged in go accepted orders and heartbeats. -/
theorem login_protocol (w : W) (es : List Event) :
    ((run E w es).state = .loggedIn ↔ LoggedInBy E (init E w) es) ∧
      ∀ e, (Sends E .loginAccepted (run E w es) e ↔ Grants E (run E w es) e) ∧
        (Sends E .orderAccepted (run E w es) e ∨ Sends E .serverHeartbeat (run E w es) e →
          LoggedInBy E (init E w) es) :=
  ⟨loggedIn_run_iff E w es, fun e => ⟨sends_loginAccepted_iff E _ e, fun h =>
    (loggedIn_run_iff E w es).mp (loggedIn_of_sends E h)⟩⟩

/-! ## Heartbeats -/

/-- No event but a tick touches the time of the last heartbeat or sends one. -/
theorem beat_step {s : OuchSession W} {e : Event} (he : e ≠ .marketLogic) :
    (step E s e).lastSendHeartbeat = s.lastSendHeartbeat ∧
      countKind .serverHeartbeat (step E s e) = countKind .serverHeartbeat s := by
  refine ⟨?_, (emits_step E s he).countKind (by simp)⟩
  cases e with
  | setLogger => rfl
  | disconnect => rfl
  | marketLogic => exact absurd rfl he
  | cancelAll => exact (sameLogin_cancelAll E s).lastSendHeartbeat
  | packet p =>
    rcases step_packet E s p with ⟨-, hstep⟩ | ⟨r, -, -, hstep⟩ <;> rw [hstep]
    exact (handle_login E s r).2.1

/-- **Heartbeats.** If no two readings of the clock in a row go back, `n` heartbeats take `n` seconds at
least. -/
theorem heartbeats_le (htime : ∀ w, (E.time w).1 ≤ (E.time (E.time w).2).1) (w : W)
    (es : List Event) :
    (countKind .serverHeartbeat (run E w es) : ℤ) ≤
      (run E w es).lastSendHeartbeat - (init E w).lastSendHeartbeat := by
  have hinit : (countKind .serverHeartbeat (init E w) : ℤ) ≤
      (init E w).lastSendHeartbeat - (init E w).lastSendHeartbeat := by
    rw [Int.sub_self]
    exact Int.le_refl 0
  refine Machine.run_invariant (f := step E) (I := fun s => (countKind .serverHeartbeat s : ℤ) ≤
    s.lastSendHeartbeat - (init E w).lastSendHeartbeat) (fun s e hs => ?_) hinit es
  by_cases he : e = .marketLogic
  · -- a heartbeat that is due moves the time of the last one on by a second at least
    subst he
    have hpasses := sameLogin_passes E (heartbeatLogic E s)
    have hcount : countKind .serverHeartbeat
          (executionLogic E (replaceLogic E (modifyLogic E (cancelLogic E (heartbeatLogic E s))))) =
        countKind .serverHeartbeat (heartbeatLogic E s) := (emits_passes E _).countKind (by simp)
    show (countKind .serverHeartbeat (marketLogic E s) : ℤ) ≤ (marketLogic E s).lastSendHeartbeat - _
    unfold marketLogic
    rw [hcount, hpasses.lastSendHeartbeat]
    rcases heartbeatLogic_cases E s with ⟨w', h⟩ | ⟨-, hdue, h⟩ <;> rw [h]
    · exact hs
    · have hclock := htime s.env
      rw [countKind_emit, if_pos (by rfl)]
      show _ ≤ (E.time (E.time s.env).2).1 - _
      have hsame : countKind .serverHeartbeat { s with lastSendHeartbeat := (E.time (E.time s.env).2).1 } =
          countKind .serverHeartbeat s := rfl
      rw [hsame]
      omega
  · -- no other event sends heartbeats or moves the time of the last one
    obtain ⟨hlast, hcount⟩ := beat_step E he (s := s)
    rw [hlast, hcount]
    exact hs

/-- A client who logs in at once and is served twice, by a clock that moves on at every reading. -/
theorem heartbeats_le_ticking :
    (countKind .serverHeartbeat (run tickingEnv 0 (loggedIn ++ [.marketLogic, .marketLogic])) : ℤ) ≤
      (run tickingEnv 0 (loggedIn ++ [.marketLogic, .marketLogic])).lastSendHeartbeat -
        (init tickingEnv 0).lastSendHeartbeat :=
  heartbeats_le tickingEnv (fun w => Int.le_of_lt (Int.lt_succ w)) 0 _

end OuchSession

end Evtsim
