import Evtsim.Lib.Watch
import Evtsim.Session

/-!
# What holds of a pass if it holds of the body of its loop

The passes of both sessions are loops over a batch or over the active orders, and so is `cancel_all`.
Which messages a pass sends, that it leaves the login alone and does not read what is pending, what it
shows of one key, and what it means for dead orders: each is stated here for any body.
-/

namespace Evtsim

open Machine Log

namespace Session

variable {O C M R Msg Own W : Type} (E : Env W)
  {cancel : Pass O C M R Msg Own W → C → Pass O C M R Msg Own W}
  {modify : Pass O C M R Msg Own W → M → Pass O C M R Msg Own W}
  {execute : Pass O C M R Msg Own W → Key → Pass O C M R Msg Own W}
  {cancelOne : Session O C M R Msg Own W × ℕ → Key → Session O C M R Msg Own W × ℕ}

/-- The session that the loop of `execution_logic` starts from, and the keys that it visits. -/
def executionStart (s : Session O C M R Msg Own W) : Session O C M R Msg Own W × List Key :=
  let v := E.visit s.activeOrders.keys s.env
  (s.inEnv v.2, v.1.val)

/-- A heartbeat is sent, at the time that is read then, if somebody is logged in and a second has gone
by. -/
theorem heartbeatLogic_cases (m : Msg) (s : Session O C M R Msg Own W) :
    (∃ w, Session.heartbeatLogic E m s = s.inEnv w) ∨
    s.state = .loggedIn ∧ 1 ≤ (E.time s.env).1 - s.lastSendHeartbeat ∧
      Session.heartbeatLogic E m s = { s with lastSendHeartbeat := (E.time (E.time s.env).2).1 }.emit
        (E.time (E.time s.env).2).2 m := by
  unfold Session.heartbeatLogic
  dsimp only
  by_cases hstate : s.state = .notLoggedIn
  · rw [if_pos hstate]
    exact .inl ⟨_, rfl⟩
  rw [if_neg hstate]
  have hin : s.state = .loggedIn := by
    cases h : s.state with
    | notLoggedIn => exact absurd h hstate
    | loggedIn => rfl
  split <;> rename_i hdue
  · exact .inr ⟨hin, hdue, rfl⟩
  · exact .inl ⟨_, rfl⟩

/-! ## Messages -/

section

variable {κ : Type} (kind : Msg → κ)

/-- The new messages are of the given kinds. -/
abbrev Emits (kinds : List κ) (s s' : Session O C M R Msg Own W) : Prop :=
  Appends (fun m => kind m ∈ kinds) s.pendingOutMessages s'.pendingOutMessages

variable {kind} {kinds : List κ} {s s' : Session O C M R Msg Own W}

/-- Where nothing is sent any kinds are allowed. -/
theorem emits_of_out (h : s'.pendingOutMessages = s.pendingOutMessages) : Emits kind kinds s s' :=
  Appends.of_eq h

/-- One message is sent, of an allowed kind. -/
theorem emits_emit {m : Msg} (h : s'.pendingOutMessages = s.pendingOutMessages ++ [m])
    (hm : kind m ∈ kinds) : Emits kind kinds s s' := by
  rw [Emits, h]
  exact appends_singleton hm

/-- More kinds are allowed as well. -/
theorem Emits.mono {l : List κ} (h : Emits kind kinds s s') (hsub : kinds ⊆ l) : Emits kind l s s' :=
  h.imp fun _ hm => hsub hm

/-- The start of a tick sends heartbeats only. -/
protected theorem emits_heartbeatLogic (m : Msg) (s : Session O C M R Msg Own W) :
    Emits kind [kind m] s (Session.heartbeatLogic E m s) := by
  rcases heartbeatLogic_cases E m s with ⟨w, h⟩ | ⟨-, -, h⟩ <;> rw [h]
  · exact emits_of_out rfl
  · exact emits_emit rfl List.mem_cons_self

/-- A cancel pass sends the kinds of its steps. -/
protected theorem emits_cancelLogic (h : ∀ st co, Emits kind kinds st.1 (cancel st co).1)
    (s : Session O C M R Msg Own W) : Emits kind kinds s (Session.cancelLogic cancel s) :=
  appends_run (g := fun st : Pass O C M R Msg Own W => st.1.pendingOutMessages) h (s, []) s.pendingCancel

/-- A modify pass sends the kinds of its steps. -/
protected theorem emits_modifyLogic (h : ∀ st mo, Emits kind kinds st.1 (modify st mo).1)
    (s : Session O C M R Msg Own W) : Emits kind kinds s (Session.modifyLogic modify s) :=
  appends_run (g := fun st : Pass O C M R Msg Own W => st.1.pendingOutMessages) h (s, []) s.pendingModify

/-- An execution pass sends the kinds of its visits. -/
protected theorem emits_executionLogic (h : ∀ st k, Emits kind kinds st.1 (execute st k).1)
    (s : Session O C M R Msg Own W) : Emits kind kinds s (Session.executionLogic E execute s) :=
  appends_run (g := fun st : Pass O C M R Msg Own W => st.1.pendingOutMessages) h
    ((executionStart E s).1, []) (executionStart E s).2

/-- `cancel_all` sends the kinds of its steps. -/
protected theorem emits_cancelAll (h : ∀ st k, Emits kind kinds st.1 (cancelOne st k).1)
    (s : Session O C M R Msg Own W) : Emits kind kinds s (Session.cancelAll E cancelOne s).1 :=
  appends_run (g := fun st : Session O C M R Msg Own W × ℕ => st.1.pendingOutMessages) h
    ((executionStart E s).1, 0) (executionStart E s).2

end

/-! ## The login -/

section

variable {κ : Type} (r : Own → κ)

/-- The login state and the time of the last heartbeat stay, and what `r` reads of the members that only
this session has. -/
structure SameLogin (s s' : Session O C M R Msg Own W) : Prop where
  state : s'.state = s.state
  lastSendHeartbeat : s'.lastSendHeartbeat = s.lastSendHeartbeat
  own : r s'.own = r s.own

variable {r} {s s' s'' : Session O C M R Msg Own W}

/-- What stays as it is keeps its login. -/
theorem SameLogin.refl (s : Session O C M R Msg Own W) : SameLogin r s s := ⟨rfl, rfl, rfl⟩

/-- Two steps that keep the login keep it. -/
theorem SameLogin.trans (h : SameLogin r s s') (h' : SameLogin r s' s'') : SameLogin r s s'' :=
  ⟨h'.state.trans h.state, h'.lastSendHeartbeat.trans h.lastSendHeartbeat, h'.own.trans h.own⟩

/-- A loop of steps that leave the login alone. -/
theorem sameLogin_run {α β : Type}
    {f : Session O C M R Msg Own W × β → α → Session O C M R Msg Own W × β}
    (hf : ∀ st a, SameLogin r st.1 (f st a).1) (st : Session O C M R Msg Own W × β) (as : List α) :
    SameLogin r st.1 (Machine.run f st as).1 :=
  Machine.run_invariant (I := fun st' => SameLogin r st.1 st'.1) (fun st' a h => h.trans (hf st' a))
    (SameLogin.refl st.1) as

/-- The end of a pass touches the active orders only. -/
theorem SameLogin.finishPass {st : Pass O C M R Msg Own W} (h : SameLogin r s st.1) :
    SameLogin r s (finishPass st) := ⟨h.state, h.lastSendHeartbeat, h.own⟩

/-- A cancel pass keeps the login if its steps do. -/
protected theorem sameLogin_cancelLogic (h : ∀ st co, SameLogin r st.1 (cancel st co).1)
    (s : Session O C M R Msg Own W) : SameLogin r s (Session.cancelLogic cancel s) := by
  obtain ⟨hstate, hlast, hown⟩ := sameLogin_run h (s, []) s.pendingCancel
  exact ⟨hstate, hlast, hown⟩

/-- A modify pass keeps the login if its steps do. -/
protected theorem sameLogin_modifyLogic (h : ∀ st mo, SameLogin r st.1 (modify st mo).1)
    (s : Session O C M R Msg Own W) : SameLogin r s (Session.modifyLogic modify s) :=
  (sameLogin_run h (s, []) s.pendingModify).finishPass

/-- An execution pass keeps the login if its visits do. -/
protected theorem sameLogin_executionLogic (h : ∀ st k, SameLogin r st.1 (execute st k).1)
    (s : Session O C M R Msg Own W) : SameLogin r s (Session.executionLogic E execute s) := by
  obtain ⟨hstate, hlast, hown⟩ := sameLogin_run h ((executionStart E s).1, []) (executionStart E s).2
  exact ⟨hstate, hlast, hown⟩

/-- `cancel_all` keeps the login if its steps do. -/
protected theorem sameLogin_cancelAll (h : ∀ st k, SameLogin r st.1 (cancelOne st k).1)
    (s : Session O C M R Msg Own W) : SameLogin r s (Session.cancelAll E cancelOne s).1 := by
  obtain ⟨hstate, hlast, hown⟩ := sameLogin_run h ((executionStart E s).1, 0) (executionStart E s).2
  exact ⟨hstate, hlast, hown⟩

end

/-! ## What is pending to be written -/

section

variable (ms : List Msg)

/-- A pass over the session with `ms` before all that is pending. -/
def passBehind (st : Pass O C M R Msg Own W) : Pass O C M R Msg Own W := (st.1.behind ms, st.2)

/-- A subscript does not depend on what waits to be sent. -/
theorem subscript_behind (construct : W → O × W) (s : Session O C M R Msg Own W) (k : Key) :
    subscript construct (s.behind ms) k = (subscript construct s k).behind ms := by
  unfold subscript
  rw [behind_activeOrders, behind_env]
  by_cases hk : k ∈ s.activeOrders
  · simp only [if_pos hk]
  · simp only [if_neg hk]
    rfl

/-- A loop over a session with messages before it is that loop. -/
theorem run_behind {α : Type} {f : Pass O C M R Msg Own W → α → Pass O C M R Msg Own W}
    (hf : ∀ st a, passBehind ms (f st a) = f (passBehind ms st) a) (s : Session O C M R Msg Own W)
    (as : List α) : Machine.run f (s.behind ms, []) as = passBehind ms (Machine.run f (s, []) as) :=
  (run_view hf (s, []) as).symm

/-- A heartbeat is sent behind what waits already. -/
protected theorem heartbeatLogic_behind (m : Msg) (s : Session O C M R Msg Own W) :
    Session.heartbeatLogic E m (s.behind ms) = (Session.heartbeatLogic E m s).behind ms := by
  unfold Session.heartbeatLogic
  dsimp only [behind_env]
  by_cases hstate : s.state = .notLoggedIn
  · rw [if_pos hstate, if_pos (c := (s.behind ms).state = .notLoggedIn) hstate]
    rfl
  rw [if_neg hstate, if_neg (c := (s.behind ms).state = .notLoggedIn) hstate]
  by_cases hdue : 1 ≤ (E.time s.env).1 - s.lastSendHeartbeat
  · rw [if_pos hdue, if_pos (c := 1 ≤ (E.time s.env).1 - (s.behind ms).lastSendHeartbeat) hdue]
    exact emit_behind_of rfl rfl rfl
  · rw [if_neg hdue, if_neg (c := 1 ≤ (E.time s.env).1 - (s.behind ms).lastSendHeartbeat) hdue]
    rfl

/-- A cancel pass reports behind what waits already if its steps do. -/
protected theorem cancelLogic_behind
    (h : ∀ st co, passBehind ms (cancel st co) = cancel (passBehind ms st) co)
    (s : Session O C M R Msg Own W) :
    Session.cancelLogic cancel (s.behind ms) = (Session.cancelLogic cancel s).behind ms := by
  unfold Session.cancelLogic
  dsimp only [behind_pendingCancel]
  rw [run_behind ms h]
  rfl

/-- A modify pass reports behind what waits already if its steps do. -/
protected theorem modifyLogic_behind
    (h : ∀ st mo, passBehind ms (modify st mo) = modify (passBehind ms st) mo)
    (s : Session O C M R Msg Own W) :
    Session.modifyLogic modify (s.behind ms) = (Session.modifyLogic modify s).behind ms := by
  unfold Session.modifyLogic
  rw [behind_pendingModify, run_behind ms h]
  rfl

/-- An execution pass reports behind what waits already if its visits do. -/
protected theorem executionLogic_behind
    (h : ∀ st k, passBehind ms (execute st k) = execute (passBehind ms st) k)
    (s : Session O C M R Msg Own W) :
    Session.executionLogic E execute (s.behind ms) = (Session.executionLogic E execute s).behind ms := by
  unfold Session.executionLogic
  dsimp only [behind_activeOrders, behind_env]
  exact congrArg finishPass (run_behind ms h (s.inEnv _) _)

/-- `cancel_all` reports behind what waits already if its steps do. -/
protected theorem cancelAll_behind
    (h : ∀ st k, ((cancelOne st k).1.behind ms, (cancelOne st k).2) = cancelOne (st.1.behind ms, st.2) k)
    (s : Session O C M R Msg Own W) : Session.cancelAll E cancelOne (s.behind ms) =
      ((Session.cancelAll E cancelOne s).1.behind ms, (Session.cancelAll E cancelOne s).2) := by
  have hrun := run_view (g := fun st => (st.1.behind ms, st.2)) h ((executionStart E s).1, 0)
    (executionStart E s).2
  exact congrArg (fun st : Session O C M R Msg Own W × ℕ => (st.1.withActive ∅, st.2)) hrun.symm

end

/-- With no active orders `cancel_all` cancels none. -/
theorem cancelAll_of_empty {s : Session O C M R Msg Own W} (h : s.activeOrders = ∅) :
    (Session.cancelAll E cancelOne s).2 = 0 := by
  have hwalk : (executionStart E s).2 = [] := E.visit_empty (by rw [h]; rfl) s.env
  show (Machine.run cancelOne ((executionStart E s).1, 0) (executionStart E s).2).2 = 0
  rw [hwalk]
  rfl

/-! ## One key in a pass -/

section

variable {about : Msg → Option Key} {k : Key} {st st' : Pass O C M R Msg Own W}

/-- What a pass shows of a key: the orders held under it, whether it is collected, and the messages about
it. -/
def viewAt (about : Msg → Option Key) (k : Key) (st : Pass O C M R Msg Own W) :
    Option O × Option O × Prop × List Msg :=
  (st.1.activeOrders.lookup k, st.1.finishedOrders.lookup k, k ∈ st.2,
    mentioning about k st.1.pendingOutMessages)

/-- Two states of a pass look the same at a key exactly if their books, their finished orders, what they
collect and what they say about it do. -/
theorem viewAt_eq_iff : viewAt about k st = viewAt about k st' ↔
    st.1.activeOrders.lookup k = st'.1.activeOrders.lookup k ∧
      st.1.finishedOrders.lookup k = st'.1.finishedOrders.lookup k ∧ (k ∈ st.2 ↔ k ∈ st'.2) ∧
      mentioning about k st.1.pendingOutMessages = mentioning about k st'.1.pendingOutMessages := by
  unfold viewAt
  rw [Prod.mk.injEq, Prod.mk.injEq, Prod.mk.injEq, eq_iff_iff]

/-- The end of a pass shows what the pass shows. -/
theorem viewAt_finishPass (h : viewAt about k st = viewAt about k st') :
    viewAt about k (finishPass st, []) = viewAt about k (finishPass st', []) := by
  rw [viewAt_eq_iff] at h ⊢
  obtain ⟨hact, hfin, hdone, hout⟩ := h
  refine ⟨?_, hfin, Iff.rfl, hout⟩
  by_cases hk : k ∈ st.2
  · rw [lookup_finishPass_of_mem hk, lookup_finishPass_of_mem (hdone.mp hk)]
  · rw [lookup_finishPass_of_notMem hk, lookup_finishPass_of_notMem fun h => hk (hdone.mpr h), hact]

variable {I : KeyedMap Key O → Prop}
  (hI : ∀ (st : Pass O C M R Msg Own W) k, I st.1.activeOrders → I (execute st k).1.activeOrders)
  (hview : ∀ (st : Pass O C M R Msg Own W) k k', I st.1.activeOrders → k' ≠ k →
    viewAt about k (execute st k') = viewAt about k st)

include hI hview

/-- If a visit shows nothing under other keys, a pass does to an active order what one visit does. -/
protected theorem executionLogic_at {s : Session O C M R Msg Own W} (hs : I s.activeOrders)
    (hmem : k ∈ s.activeOrders) :
    ∃ st, viewAt about k st = viewAt about k (s, []) ∧
      viewAt about k (Session.executionLogic E execute s, []) =
        viewAt about k (finishPass (execute st k), []) := by
  have hnodup : (executionStart E s).2.Nodup :=
    (E.visit s.activeOrders.keys s.env).1.property.nodup_iff.mpr s.activeOrders.keys_nodup
  have hvisited : k ∈ (executionStart E s).2 :=
    (E.visit s.activeOrders.keys s.env).1.property.mem_iff.mpr (AList.mem_keys.mpr hmem)
  obtain ⟨st, -, hsame, hrun⟩ := view_run_of_mem (f := execute) (v := viewAt about)
    (I := fun st => I st.1.activeOrders) hI hview (s := ((executionStart E s).1, [])) hs hnodup hvisited
  exact ⟨st, hsame, viewAt_finishPass hrun⟩

/-- Nothing happens under a key that is not active. -/
protected theorem executionLogic_at_of_notMem {s : Session O C M R Msg Own W} (hs : I s.activeOrders)
    (hmem : k ∉ s.activeOrders) :
    viewAt about k (Session.executionLogic E execute s, []) = viewAt about k (s, []) := by
  have hout : k ∉ (executionStart E s).2 := fun h =>
    hmem (AList.mem_keys.mp ((E.visit s.activeOrders.keys s.env).1.property.mem_iff.mp h))
  have hrun := view_run_of_notMem (f := execute) (v := viewAt about) (I := fun st => I st.1.activeOrders)
    hI hview (s := ((executionStart E s).1, [])) hs hout
  refine (viewAt_finishPass hrun).trans ?_
  rw [viewAt_eq_iff]
  exact ⟨rfl, rfl, Iff.rfl, rfl⟩

end

/-- Between `s` and `s'` shares move: every active order has one of the fates that a pass may give it, and
nothing else happens. -/
structure MovesShares (about : Msg → Option Key)
    (Fate : O → Option O → Option O → Option O → List Msg → Prop) (s s' : Session O C M R Msg Own W) :
    Prop where
  fate : ∀ k o, s.activeOrders.lookup k = some o →
    Fate o (s.finishedOrders.lookup k) (s'.activeOrders.lookup k) (s'.finishedOrders.lookup k)
      (mentioning about k (added s.pendingOutMessages s'.pendingOutMessages))
  elsewhere : ∀ k, k ∉ s.activeOrders → k ∉ s'.activeOrders ∧
    s'.finishedOrders.lookup k = s.finishedOrders.lookup k ∧
      mentioning about k (added s.pendingOutMessages s'.pendingOutMessages) = []

/-! ## An order that fills up -/

section

variable (order : O → Order) (shares : Msg → ℕ) (k : Key) (q : ℕ)

/-- The order of `k` is finished, and its `q` shares have been reported, on top of `base`. -/
structure Filled (base : ℕ) (s : Session O C M R Msg Own W) : Prop where
  active : s.activeOrders.lookup k = none
  finished : ∃ o, s.finishedOrders.lookup k = some o ∧ (order o).executedQty = q ∧
    (order o).remainingQty = 0
  reported : weight shares s.pendingOutMessages = base + q

/-- Between `s` and `s'` exactly `q` shares are reported, and the order of `k` is finished with all of them
executed. -/
structure FilledUp (s s' : Session O C M R Msg Own W) : Prop where
  notActive : k ∉ s'.activeOrders
  finished : ∃ o, s'.finishedOrders.lookup k = some o ∧ (order o).executedQty = q ∧
    (order o).remainingQty = 0
  reported : weight shares (added s.pendingOutMessages s'.pendingOutMessages) = q

variable {order shares k q} {s s' : Session O C M R Msg Own W}

/-- A tick that fills an order adds what it executes to what has been told. -/
theorem Filled.filledUp {Q : Msg → Prop} (h : Filled order shares k q (weight shares s.pendingOutMessages) s')
    (hgrow : Appends Q s.pendingOutMessages s'.pendingOutMessages) : FilledUp order shares k q s s' := by
  refine ⟨KeyedMap.lookup_eq_none.mp h.active, h.finished, ?_⟩
  obtain ⟨ms, hms, -⟩ := hgrow
  have hreported := h.reported
  rw [hms, weight_append] at hreported
  rw [hms, added_append]
  omega

variable {about : Msg → Option Key} (hshares : ∀ m, about m ≠ some k → shares m = 0)

include hshares

/-- States that look the same at a key have told the same shares of it. -/
theorem weight_of_viewAt {st st' : Pass O C M R Msg Own W} (h : viewAt about k st = viewAt about k st') :
    weight shares st.1.pendingOutMessages = weight shares st'.1.pendingOutMessages := by
  rw [← weight_mentioning hshares, ← weight_mentioning hshares st'.1.pendingOutMessages,
    (viewAt_eq_iff.mp h).2.2.2]

section

variable {st st' : Pass O C M R Msg Own W} (hbefore : viewAt about k st = viewAt about k (s, []))
  (hafter : viewAt about k (s', []) = viewAt about k (finishPass st', []))

include hbefore hafter

/-- Sessions that look at a key like the ends of a visit differ by the shares that the visit tells. -/
theorem weight_of_visit {ms : List Msg}
    (hout : st'.1.pendingOutMessages = st.1.pendingOutMessages ++ ms) :
    weight shares s'.pendingOutMessages = weight shares s.pendingOutMessages + weight shares ms :=
  calc weight shares s'.pendingOutMessages
      = weight shares st'.1.pendingOutMessages := weight_of_viewAt hshares hafter
    _ = weight shares st.1.pendingOutMessages + weight shares ms := by rw [hout, weight_append]
    _ = weight shares s.pendingOutMessages + weight shares ms :=
      congrArg (· + weight shares ms) (weight_of_viewAt hshares hbefore)

/-- A visit that moves an order with all its shares executed to the finished ones, without a message. -/
theorem Filled.of_visit {base : ℕ} {o : O} (hreported : weight shares s.pendingOutMessages = base + q)
    (hout : st'.1.pendingOutMessages = st.1.pendingOutMessages) (hlast : k ∈ st'.2)
    (hfinished : st'.1.finishedOrders.lookup k = some o) (hexe : (order o).executedQty = q)
    (hrem : (order o).remainingQty = 0) : Filled order shares k q base s' := by
  obtain ⟨hact, hfin, -, -⟩ := viewAt_eq_iff.mp hafter
  refine ⟨hact.trans (lookup_finishPass_of_mem hlast), ⟨o, hfin.trans hfinished, hexe, hrem⟩, ?_⟩
  rw [weight_of_visit hshares hbefore hafter (hout.trans (List.append_nil _).symm)]
  exact hreported

end

/-- What shows nothing of a finished order leaves it so. -/
theorem Filled.of_viewAt {base : ℕ} (h : Filled order shares k q base s)
    (hview : viewAt about k (s', []) = viewAt about k (s, [])) : Filled order shares k q base s' := by
  obtain ⟨hact, hfin, -, -⟩ := viewAt_eq_iff.mp hview
  obtain ⟨o, ho, hexe, hrem⟩ := h.finished
  exact ⟨hact.trans h.active, ⟨o, hfin.trans ho, hexe, hrem⟩,
    (weight_of_viewAt hshares hview).trans h.reported⟩

end

/-! ## Dead orders -/

section

variable {σ ε : Type} {f : σ → ε → σ} {g : σ → Session O C M R Msg Own W}

/-- The dead are known by their tokens; noted is the finished order that the token named at the time of
death, which is another one. -/
abbrev Watched (O Msg σ : Type) := Watch σ Key (Option O) Msg

/-- The new messages of a step of a machine that holds a session. -/
def newMessages (f : σ → ε → σ) (g : σ → Session O C M R Msg Own W) (st : σ) (e : ε) : List Msg :=
  added (g st).pendingOutMessages (g (f st e)).pendingOutMessages

/-- A step of a machine that holds a session, under watch. -/
def watch (f : σ → ε → σ) (g : σ → Session O C M R Msg Own W) (reading : Reading σ ε Key (Option O) Msg) :
    Watched O Msg σ → ε → Watched O Msg σ :=
  Watch.step f (fun st => (g st).pendingOutMessages) reading

/-- `cancel_logic`, with its loop under watch. -/
protected def watchCancel (cancel : Pass O C M R Msg Own W → C → Pass O C M R Msg Own W)
    (reading : Reading (Pass O C M R Msg Own W) C Key (Option O) Msg)
    (a : Watched O Msg (Session O C M R Msg Own W)) : Watched O Msg (Session O C M R Msg Own W) :=
  let b := Machine.run (watch cancel Prod.fst reading) (a.goOn (a.st, [])) a.st.pendingCancel
  b.goOn (finishPass ({ b.st.1 with pendingCancel := [] }, b.st.2))

/-- `modify_logic`, likewise. -/
protected def watchModify (modify : Pass O C M R Msg Own W → M → Pass O C M R Msg Own W)
    (reading : Reading (Pass O C M R Msg Own W) M Key (Option O) Msg)
    (a : Watched O Msg (Session O C M R Msg Own W)) : Watched O Msg (Session O C M R Msg Own W) :=
  let b := Machine.run (watch modify Prod.fst reading) (a.goOn (a.st, [])) a.st.pendingModify
  b.goOn (finishPass b.st)

/-- `execution_logic`, likewise. -/
protected def watchExecution (execute : Pass O C M R Msg Own W → Key → Pass O C M R Msg Own W)
    (reading : Reading (Pass O C M R Msg Own W) Key Key (Option O) Msg)
    (a : Watched O Msg (Session O C M R Msg Own W)) : Watched O Msg (Session O C M R Msg Own W) :=
  let v := executionStart E a.st
  let b := Machine.run (watch execute Prod.fst reading) (a.goOn (v.1, [])) v.2
  b.goOn (finishPass b.st)

/-- `cancel_all`, likewise. -/
protected def watchCancelAll
    (cancelOne : Session O C M R Msg Own W × ℕ → Key → Session O C M R Msg Own W × ℕ)
    (reading : Reading (Session O C M R Msg Own W × ℕ) Key Key (Option O) Msg)
    (a : Watched O Msg (Session O C M R Msg Own W)) : Watched O Msg (Session O C M R Msg Own W) :=
  let v := executionStart E a.st
  let b := Machine.run (watch cancelOne Prod.fst reading) (a.goOn (v.1, 0)) v.2
  b.goOn (b.st.1.withActive ∅)

section

variable (a : Watched O Msg (Session O C M R Msg Own W))

/-- The watch of a cancel pass does not touch the session. -/
protected theorem watchCancel_st (reading : Reading (Pass O C M R Msg Own W) C Key (Option O) Msg) :
    (Session.watchCancel cancel reading a).st = Session.cancelLogic cancel a.st := by
  unfold Session.watchCancel watch
  rw [Watch.goOn_st, Watch.run_st]
  rfl

/-- The watch of a modify pass does not touch the session. -/
protected theorem watchModify_st (reading : Reading (Pass O C M R Msg Own W) M Key (Option O) Msg) :
    (Session.watchModify modify reading a).st = Session.modifyLogic modify a.st := by
  unfold Session.watchModify watch
  rw [Watch.goOn_st, Watch.run_st]
  rfl

/-- The watch of an execution pass does not touch the session. -/
protected theorem watchExecution_st
    (reading : Reading (Pass O C M R Msg Own W) Key Key (Option O) Msg) :
    (Session.watchExecution E execute reading a).st = Session.executionLogic E execute a.st := by
  unfold Session.watchExecution watch
  rw [Watch.goOn_st, Watch.run_st]
  rfl

/-- The watch of `cancel_all` does not touch the session. -/
protected theorem watchCancelAll_st
    (reading : Reading (Session O C M R Msg Own W × ℕ) Key Key (Option O) Msg) :
    (Session.watchCancelAll E cancelOne reading a).st = (Session.cancelAll E cancelOne a.st).1 := by
  unfold Session.watchCancelAll watch
  rw [Watch.goOn_st, Watch.run_st]
  rfl

end

/-- Nothing remains of a dead order, active or moved to the finished ones: it is `spent`. -/
structure AtRest (spent : O → Prop) (dead : List (Key × Option O)) (s : Session O C M R Msg Own W) :
    Prop where
  active : ∀ q ∈ dead, ∀ o, s.activeOrders.lookup q.1 = some o → spent o
  finished : ∀ q ∈ dead, ∀ o, s.finishedOrders.lookup q.1 = some o → spent o ∨ q.2 = some o

/-- No message about a dead order, and nothing remains of any. -/
def StayDead (spent : O → Prop) (a : Watched O Msg (Session O C M R Msg Own W)) : Prop :=
  a.late = [] ∧ AtRest spent a.retired a.st

variable {spent : O → Prop} {reading : Reading σ ε Key (Option O) Msg} {b : Watched O Msg σ} {e : ε}

/-- The dead stay at rest if the step leaves alone those whose tokens it does not give away, and retires
only what is spent. -/
theorem AtRest.next
    (hretired : ∀ q, reading.retired b.st e = some q →
      (∀ o, (g (f b.st e)).activeOrders.lookup q.1 = some o → spent o) ∧
        (g (f b.st e)).finishedOrders.lookup q.1 = q.2)
    (hactive : ∀ q ∈ b.retired, reading.given b.st e ≠ some q.1 →
      ∀ o, (g (f b.st e)).activeOrders.lookup q.1 = some o → spent o)
    (hfinished : ∀ q ∈ b.retired, reading.given b.st e ≠ some q.1 →
      ∀ o, (g (f b.st e)).finishedOrders.lookup q.1 = some o → spent o ∨ q.2 = some o) :
    AtRest spent (watch f g reading b e).retired (g (watch f g reading b e).st) := by
  constructor
  · intro q hq
    rcases Watch.mem_retired_step.mp hq with ⟨hold, hkept⟩ | hdied
    · exact hactive q hold hkept
    · exact (hretired q hdied).1
  · intro q hq o ho
    rcases Watch.mem_retired_step.mp hq with ⟨hold, hkept⟩ | hdied
    · exact hfinished q hold hkept o ho
    · exact .inr ((hretired q hdied).2.symm.trans ho)

/-- Orders that leave the book. -/
theorem AtRest.finishPass {dead : List (Key × Option O)} {st : Pass O C M R Msg Own W}
    (h : AtRest spent dead st.1) : AtRest spent dead (finishPass st) :=
  ⟨fun q hq o ho => h.active q hq o (lookup_finishPass_eq_some.mp ho).2, h.finished⟩

end

end Session

end Evtsim
