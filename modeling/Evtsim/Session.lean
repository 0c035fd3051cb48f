import Evtsim.Environment
import Evtsim.Lib.KeyedMap
import Evtsim.Lib.Machine

/-!
# The session classes (`session.h`)

`ouch_session` and `boe_session` derive from `session` and declare the same members: two maps of orders,
three queues of requests. `Session` is what they share, over their orders, requests and messages; `Own` is
what only one of them has. What both do alike to these members is written down here once, with its
lemmas: message by message, subscript by subscript, pass by pass.
-/

namespace Evtsim

/-- A session with the surroundings it runs in. -/
structure Session (O C M R Msg Own W : Type) where
  env : W
  pendingOutMessages : List Msg
  lastSendHeartbeat : ℤ
  lastRecvHeartbeat : ℤ
  state : SessionState
  activeOrders : KeyedMap Key O
  finishedOrders : KeyedMap Key O
  pendingCancel : List C
  pendingModify : List M
  pendingReplace : List R
  own : Own

namespace Session

variable {O C M R Msg Own W : Type}

/-! ## Updates -/

/-- Append one message, in the surroundings that making it has left. -/
def emit (s : Session O C M R Msg Own W) (w : W) (m : Msg) : Session O C M R Msg Own W :=
  { s with env := w, pendingOutMessages := s.pendingOutMessages ++ [m] }

/-- The session in other surroundings. -/
def inEnv (s : Session O C M R Msg Own W) (w : W) : Session O C M R Msg Own W := { s with env := w }

/-- The session with other active orders. -/
def withActive (s : Session O C M R Msg Own W) (A : KeyedMap Key O) : Session O C M R Msg Own W :=
  { s with activeOrders := A }

section

variable (s : Session O C M R Msg Own W) (w : W) (m : Msg) (A : KeyedMap Key O)

@[simp] theorem emit_out : (s.emit w m).pendingOutMessages = s.pendingOutMessages ++ [m] := rfl
@[simp] theorem emit_env : (s.emit w m).env = w := rfl
@[simp] theorem emit_state : (s.emit w m).state = s.state := rfl
@[simp] theorem emit_activeOrders : (s.emit w m).activeOrders = s.activeOrders := rfl
@[simp] theorem emit_finishedOrders : (s.emit w m).finishedOrders = s.finishedOrders := rfl
@[simp] theorem emit_pendingCancel : (s.emit w m).pendingCancel = s.pendingCancel := rfl
@[simp] theorem emit_pendingModify : (s.emit w m).pendingModify = s.pendingModify := rfl
@[simp] theorem emit_pendingReplace : (s.emit w m).pendingReplace = s.pendingReplace := rfl
@[simp] theorem emit_own : (s.emit w m).own = s.own := rfl

@[simp] theorem inEnv_env : (s.inEnv w).env = w := rfl
@[simp] theorem inEnv_out : (s.inEnv w).pendingOutMessages = s.pendingOutMessages := rfl
@[simp] theorem inEnv_state : (s.inEnv w).state = s.state := rfl
@[simp] theorem inEnv_activeOrders : (s.inEnv w).activeOrders = s.activeOrders := rfl
@[simp] theorem inEnv_finishedOrders : (s.inEnv w).finishedOrders = s.finishedOrders := rfl
@[simp] theorem inEnv_pendingCancel : (s.inEnv w).pendingCancel = s.pendingCancel := rfl
@[simp] theorem inEnv_pendingModify : (s.inEnv w).pendingModify = s.pendingModify := rfl
@[simp] theorem inEnv_pendingReplace : (s.inEnv w).pendingReplace = s.pendingReplace := rfl
@[simp] theorem inEnv_own : (s.inEnv w).own = s.own := rfl

@[simp] theorem withActive_env : (s.withActive A).env = s.env := rfl
@[simp] theorem withActive_out : (s.withActive A).pendingOutMessages = s.pendingOutMessages := rfl
@[simp] theorem withActive_state : (s.withActive A).state = s.state := rfl
@[simp] theorem withActive_activeOrders : (s.withActive A).activeOrders = A := rfl
@[simp] theorem withActive_finishedOrders : (s.withActive A).finishedOrders = s.finishedOrders := rfl
@[simp] theorem withActive_pendingCancel : (s.withActive A).pendingCancel = s.pendingCancel := rfl
@[simp] theorem withActive_pendingModify : (s.withActive A).pendingModify = s.pendingModify := rfl
@[simp] theorem withActive_pendingReplace : (s.withActive A).pendingReplace = s.pendingReplace := rfl
@[simp] theorem withActive_own : (s.withActive A).own = s.own := rfl

end

/-! ## Subscripts

`active_orders[k]` and `finished_orders[k] = o` construct an order under a new key: `construct` is the
default constructor of the order class. -/

section

variable (construct : W → O × W)

/-- `active_orders[k]` where `k` may be absent. -/
def subscript (s : Session O C M R Msg Own W) (k : Key) : Session O C M R Msg Own W :=
  if k ∈ s.activeOrders then s
  else
    let d := construct s.env
    { s with env := d.2, activeOrders := KeyedMap.touch k d.1 s.activeOrders }

/-- The order that `active_orders[k]` refers to: a default-constructed one where there was none. -/
def entry (s : Session O C M R Msg Own W) (k : Key) : O :=
  match s.activeOrders.lookup k with
  | some o => o
  | none => (construct s.env).1

/-- `finished_orders[k] = o`: for a new key the subscript default-constructs an order, which the assignment
overwrites. -/
def finish (s : Session O C M R Msg Own W) (k : Key) (o : O) : Session O C M R Msg Own W :=
  { s with
    env := if k ∈ s.finishedOrders then s.env else (construct s.env).2
    finishedOrders := s.finishedOrders.insert k o }

section

variable (s : Session O C M R Msg Own W) (k : Key) (o : O)

@[simp] theorem finish_out : (s.finish construct k o).pendingOutMessages = s.pendingOutMessages := rfl
@[simp] theorem finish_activeOrders : (s.finish construct k o).activeOrders = s.activeOrders := rfl
@[simp] theorem finish_finishedOrders :
    (s.finish construct k o).finishedOrders = s.finishedOrders.insert k o := rfl

end

/-- A subscript refers to the entry that is there. -/
theorem entry_of_lookup {s : Session O C M R Msg Own W} {k : Key} {o : O}
    (h : s.activeOrders.lookup k = some o) : entry construct s k = o := by
  unfold entry
  rw [h]

/-- A subscript reads no entry of a key that has none: it makes one. -/
theorem entry_of_notMem {s : Session O C M R Msg Own W} {k : Key} (h : k ∉ s.activeOrders) :
    entry construct s k = (construct s.env).1 := by
  unfold entry
  rw [KeyedMap.lookup_eq_none.mpr h]

/-- A subscript gives its key an entry. -/
theorem subscript_eq (s : Session O C M R Msg Own W) (k : Key) :
    ∃ w, subscript construct s k =
      (s.withActive (KeyedMap.touch k (entry construct s k) s.activeOrders)).inEnv w := by
  unfold subscript
  by_cases hk : k ∈ s.activeOrders
  · rw [if_pos hk, KeyedMap.touch_of_mem _ hk]
    exact ⟨s.env, rfl⟩
  · rw [if_neg hk, entry_of_notMem construct hk]
    exact ⟨_, rfl⟩

/-- The entry that a subscript makes is the one that it refers to. -/
theorem lookup_touch_self (s : Session O C M R Msg Own W) (k : Key) :
    (KeyedMap.touch k (entry construct s k) s.activeOrders).lookup k = some (entry construct s k) := by
  rcases hk : s.activeOrders.lookup k with _ | o
  · rw [KeyedMap.touch_of_notMem _ (KeyedMap.lookup_eq_none.mp hk), AList.lookup_insert]
  · rw [KeyedMap.touch_of_mem _ (KeyedMap.mem_of_lookup hk), hk, entry_of_lookup construct hk]

end

/-! ## Passes -/

/-- A session in the middle of a pass, with the local `done_tokens`. -/
abbrev Pass (O C M R Msg Own W : Type) := Session O C M R Msg Own W × List Key

/-- The end of a pass: the collected tokens leave `active_orders`. -/
def finishPass (st : Pass O C M R Msg Own W) : Session O C M R Msg Own W :=
  { st.1 with activeOrders := KeyedMap.eraseAll st.2 st.1.activeOrders }

section

variable {st : Pass O C M R Msg Own W} {k : Key}

/-- A collected token is gone at the end of the pass. -/
theorem lookup_finishPass_of_mem (h : k ∈ st.2) : (finishPass st).activeOrders.lookup k = none := by
  show (KeyedMap.eraseAll st.2 st.1.activeOrders).lookup k = none
  rw [KeyedMap.lookup_eraseAll, if_pos h]

/-- What is not collected stays. -/
theorem lookup_finishPass_of_notMem (h : k ∉ st.2) :
    (finishPass st).activeOrders.lookup k = st.1.activeOrders.lookup k := by
  show (KeyedMap.eraseAll st.2 st.1.activeOrders).lookup k = _
  rw [KeyedMap.lookup_eraseAll, if_neg h]

/-- What is held at the end of a pass was held before, under a key that was not collected. -/
theorem lookup_finishPass_eq_some {o : O} : (finishPass st).activeOrders.lookup k = some o ↔
    k ∉ st.2 ∧ st.1.activeOrders.lookup k = some o := by
  by_cases hk : k ∈ st.2
  · rw [lookup_finishPass_of_mem hk]
    exact iff_of_false (fun h => nomatch h) fun h => h.1 hk
  · rw [lookup_finishPass_of_notMem hk, and_iff_right hk]

end

/-! ## The functions that both sessions write alike

A loop over a batch of requests or over the active orders is the fold of its body over a session and the
local `done_tokens`. The bodies, and the message of a heartbeat, are the sessions' own. -/

section

variable (E : Env W)

/-- `handle_client_heartbeat` -/
protected def handleClientHeartbeat (s : Session O C M R Msg Own W) : Session O C M R Msg Own W :=
  let c := E.clock s.env
  { s with env := c.2, lastRecvHeartbeat := c.1 }

/-- `heartbeat_logic`, which sends `m`. -/
protected def heartbeatLogic (m : Msg) (s : Session O C M R Msg Own W) : Session O C M R Msg Own W :=
  let t := E.time s.env
  let s := { s with env := t.2 }
  if s.state = .notLoggedIn then s
  else if 1 ≤ t.1 - s.lastSendHeartbeat then
    let t' := E.time s.env
    { s with lastSendHeartbeat := t'.1 }.emit t'.2 m
  else s

/-- `cancel_logic` -/
protected def cancelLogic (step : Pass O C M R Msg Own W → C → Pass O C M R Msg Own W)
    (s : Session O C M R Msg Own W) : Session O C M R Msg Own W :=
  let st := Machine.run step (s, []) s.pendingCancel
  finishPass ({ st.1 with pendingCancel := [] }, st.2)

/-- `modify_logic`; the queue keeps its requests. -/
protected def modifyLogic (step : Pass O C M R Msg Own W → M → Pass O C M R Msg Own W)
    (s : Session O C M R Msg Own W) : Session O C M R Msg Own W :=
  finishPass (Machine.run step (s, []) s.pendingModify)

/-- `execution_logic` -/
protected def executionLogic (step : Pass O C M R Msg Own W → Key → Pass O C M R Msg Own W)
    (s : Session O C M R Msg Own W) : Session O C M R Msg Own W :=
  let v := E.visit s.activeOrders.keys s.env
  finishPass (Machine.run step ({ s with env := v.2 }, []) v.1.val)

/-- `cancel_all`, with the count of cancelled orders. -/
protected def cancelAll (step : Session O C M R Msg Own W × ℕ → Key → Session O C M R Msg Own W × ℕ)
    (s : Session O C M R Msg Own W) : Session O C M R Msg Own W × ℕ :=
  let v := E.visit s.activeOrders.keys s.env
  let st := Machine.run step ({ s with env := v.2 }, 0) v.1.val
  ({ st.1 with activeOrders := ∅ }, st.2)

end

/-! ## Steps that concern no order -/

section

variable {κ : Type} (r : Own → κ) (P : Msg → Bool)

/-- Nothing happens to any order: the maps and the queues stay as they are, and no message with `P` is
sent. What `r` reads of the members that only this session has stays too. -/
structure Idle (s s' : Session O C M R Msg Own W) : Prop where
  activeOrders : s'.activeOrders = s.activeOrders
  finishedOrders : s'.finishedOrders = s.finishedOrders
  pendingCancel : s'.pendingCancel = s.pendingCancel
  pendingModify : s'.pendingModify = s.pendingModify
  pendingReplace : s'.pendingReplace = s.pendingReplace
  own : r s'.own = r s.own
  out : ∃ ms, s'.pendingOutMessages = s.pendingOutMessages ++ ms ∧ ∀ m ∈ ms, P m = false

variable {r P}

/-- Doing nothing concerns no order. -/
theorem Idle.refl (s : Session O C M R Msg Own W) : Idle r P s s :=
  ⟨rfl, rfl, rfl, rfl, rfl, rfl, [], (List.append_nil _).symm, List.forall_mem_nil _⟩

/-- Neither does a look at the surroundings. -/
theorem idle_inEnv (s : Session O C M R Msg Own W) (w : W) : Idle r P s (s.inEnv w) :=
  ⟨rfl, rfl, rfl, rfl, rfl, rfl, [], (List.append_nil _).symm, List.forall_mem_nil _⟩

/-- Neither does a message that is not of the kind. -/
theorem idle_emit (s : Session O C M R Msg Own W) (w : W) {m : Msg} (hm : P m = false) :
    Idle r P s (s.emit w m) :=
  ⟨rfl, rfl, rfl, rfl, rfl, rfl, [m], rfl, List.forall_mem_singleton.mpr hm⟩

/-- Neither does the start of a tick. -/
protected theorem idle_heartbeatLogic (E : Env W) (s : Session O C M R Msg Own W) {m : Msg}
    (hm : P m = false) : Idle r P s (Session.heartbeatLogic E m s) := by
  unfold Session.heartbeatLogic
  dsimp only
  split
  · exact idle_inEnv s _
  split
  · exact ⟨rfl, rfl, rfl, rfl, rfl, rfl, [m], rfl, List.forall_mem_singleton.mpr hm⟩
  · exact idle_inEnv s _

/-- Of the messages fewer are looked for, and nothing of the other members. -/
theorem Idle.mono {Q : Msg → Bool} {s s' : Session O C M R Msg Own W} (h : Idle r P s s')
    (hPQ : ∀ m, P m = false → Q m = false) : Idle (fun _ => ()) Q s s' := by
  obtain ⟨ms, hout, hms⟩ := h.out
  exact ⟨h.activeOrders, h.finishedOrders, h.pendingCancel, h.pendingModify, h.pendingReplace, rfl, ms,
    hout, fun m hm => hPQ m (hms m hm)⟩

end

/-! ## What is pending to be written -/

/-- The session with `ms` before all that is pending. -/
def behind (ms : List Msg) (s : Session O C M R Msg Own W) : Session O C M R Msg Own W :=
  { s with pendingOutMessages := ms ++ s.pendingOutMessages }

/-- `pending_out_messages.clear()` -/
def clearOut (s : Session O C M R Msg Own W) : Session O C M R Msg Own W :=
  { s with pendingOutMessages := [] }

section

variable (ms : List Msg) (s : Session O C M R Msg Own W)

@[simp] theorem behind_out : (s.behind ms).pendingOutMessages = ms ++ s.pendingOutMessages := rfl
@[simp] theorem behind_env : (s.behind ms).env = s.env := rfl
@[simp] theorem behind_state : (s.behind ms).state = s.state := rfl
@[simp] theorem behind_activeOrders : (s.behind ms).activeOrders = s.activeOrders := rfl
@[simp] theorem behind_finishedOrders : (s.behind ms).finishedOrders = s.finishedOrders := rfl
@[simp] theorem behind_pendingCancel : (s.behind ms).pendingCancel = s.pendingCancel := rfl
@[simp] theorem behind_pendingModify : (s.behind ms).pendingModify = s.pendingModify := rfl
@[simp] theorem behind_pendingReplace : (s.behind ms).pendingReplace = s.pendingReplace := rfl
@[simp] theorem behind_own : (s.behind ms).own = s.own := rfl

@[simp] theorem behind_nil : s.behind [] = s := rfl

/-- What has been cleared away is put back. -/
theorem behind_clearOut : s.clearOut.behind (ms ++ s.pendingOutMessages) = s.behind ms := by
  unfold clearOut behind
  rw [List.append_nil]

/-- What is sent is sent behind what waits already. -/
theorem emit_behind_of {ms : List Msg} {s t : Session O C M R Msg Own W} {w w' : W} {m m' : Msg}
    (hs : t = s.behind ms) (hw : w' = w) (hm : m' = m) : t.emit w' m' = (s.emit w m).behind ms := by
  rw [hs, hw, hm]
  unfold emit behind
  rw [List.append_assoc]

end

end Session

end Evtsim
