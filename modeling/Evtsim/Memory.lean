import Evtsim.Packets
import Evtsim.Ouch.Emission

/-!
# The memory that a message struct is built in

A `construct_*` function declares its struct without clearing it, so a field that neither the
constructor nor the function sets goes out as the memory held it. Two runs are compared that differ in
that memory only: `initialised_iff` says exactly when they send the same bytes.

OUCH leaves fields open in `OrderReplaced` alone. BOE leaves `reserved` open in every message of its
own but the login response and the heartbeat.
-/

namespace Evtsim

open Wire Machine Log Session

/-- The surroundings with `c` in the memory that message structs are built in. -/
def Env.withRaw {W : Type} (E : Env W) (c : W → Mem) : Env W :=
  { E with raw := fun w => (c w, (E.raw w).2) }

/-- The same byte everywhere. -/
def filled (W : Type) (b : UInt8) : W → Mem := fun _ _ => b

/-! ## OUCH -/

namespace OuchSession

open Ouch

variable {W : Type} (E : Env W)

/-- The bytes that a run sends do not depend on the memory that the structs are built in. -/
def Initialised (w : W) (es : List Event) : Prop :=
  ∀ c c' : W → Mem, (run (E.withRaw c) w es).pendingOutMessages.map OutMsg.bytes =
    (run (E.withRaw c') w es).pendingOutMessages.map OutMsg.bytes

/-- A tick applies no replacement: every pending one cancels its order instead. -/
def ReplacesNothing (s : OuchSession W) : Event → Prop
  | .marketLogic =>
    let s := modifyLogic E (cancelLogic E (heartbeatLogic E s))
    Along (replaceStep E)
      (fun st ro => replaceCancels ro (entry E.ouchOrder st.1 ro.existingToken.str).executedQty = true)
      (s, []) s.pendingReplace
  | _ => True

/-- The replacements reported so far. -/
def replacements (out : List OutMsg) : List OrderReplaced :=
  out.filterMap fun
    | .orderReplaced m => some m
    | _ => none

/-- What sends no `OrderReplaced` reports no replacement. -/
theorem replacements_of_emits {K : List Kind} {s s' : OuchSession W} (h : Emits K s s')
    (hkinds : .orderReplaced ∉ K) :
    replacements s'.pendingOutMessages = replacements s.pendingOutMessages := by
  apply h.filterMap
  intro m hm
  cases m
  case orderReplaced => exact (hkinds hm).elim
  all_goals rfl

/-- The display of an `OrderReplaced` is what stands in the memory. -/
theorem constructOrderReplaced_out (s : OuchSession W) (ro : OuchReplaceOrderReq) (o : OuchOrder) :
    ∃ m w, m.display = (E.raw w).1 51 ∧
      (constructOrderReplaced E s ro o).pendingOutMessages =
        s.pendingOutMessages ++ [.orderReplaced m] := by
  refine ⟨_, s.env, ?_, rfl⟩
  rfl

/-- A replacement that is applied takes its `display` from the memory. -/
theorem replacements_replaceStep (st : Pass W) (ro : OuchReplaceOrderReq) :
    (replaceCancels ro (entry E.ouchOrder st.1 ro.existingToken.str).executedQty = true ∧
      replacements (replaceStep E st ro).1.pendingOutMessages =
        replacements st.1.pendingOutMessages) ∨
    (replaceCancels ro (entry E.ouchOrder st.1 ro.existingToken.str).executedQty = false ∧
      ∃ m w, m.display = (E.raw w).1 51 ∧ replacements (replaceStep E st ro).1.pendingOutMessages =
        replacements st.1.pendingOutMessages ++ [m]) := by
  obtain ⟨w, hsub⟩ := subscript_eq E.ouchOrder st.1 ro.existingToken.str
  have hself := lookup_touch_self E.ouchOrder st.1 ro.existingToken.str
  unfold replaceStep
  simp only [hsub, inEnv_activeOrders, withActive_activeOrders, hself]
  rcases replaceCancels ro (entry E.ouchOrder st.1 ro.existingToken.str).executedQty with _ | _
  · right
    refine ⟨rfl, ?_⟩
    simp only [Bool.false_eq_true, if_false]
    generalize hs' : constructOrderReplaced E _ ro _ = s'
    obtain ⟨m, w'', hm, hout⟩ : ∃ m w, m.display = (E.raw w).1 51 ∧
        s'.pendingOutMessages = st.1.pendingOutMessages ++ [.orderReplaced m] := by
      rw [← hs']
      exact constructOrderReplaced_out E _ ro _
    obtain ⟨w', hsub'⟩ := subscript_eq E.ouchOrder s' ro.newToken.str
    refine ⟨m, w'', hm, ?_⟩
    rw [hsub']
    show replacements s'.pendingOutMessages = _
    rw [hout]
    exact List.filterMap_append
  · left
    refine ⟨rfl, ?_⟩
    simp only [if_true]
    exact replacements_of_emits (K := [.orderCanceled]) (s := st.1)
      (emits_emit rfl List.mem_cons_self) (by decide)

/-- A replacement that cancels its order does not read the memory. -/
theorem replaceStep_withRaw (c : W → Mem) {st : Pass W} {ro : OuchReplaceOrderReq}
    (h : replaceCancels ro (entry E.ouchOrder st.1 ro.existingToken.str).executedQty = true) :
    replaceStep (E.withRaw c) st ro = replaceStep E st ro := by
  obtain ⟨w, hsub⟩ := subscript_eq E.ouchOrder st.1 ro.existingToken.str
  have hsub' : subscript (E.withRaw c).ouchOrder st.1 ro.existingToken.str =
      subscript E.ouchOrder st.1 ro.existingToken.str := rfl
  have hself := lookup_touch_self E.ouchOrder st.1 ro.existingToken.str
  unfold replaceStep
  simp only [hsub', hsub, inEnv_activeOrders, withActive_activeOrders, hself, h, if_true]
  rfl

/-- An event that replaces nothing does not read the memory. -/
theorem step_withRaw (c : W → Mem) {s : OuchSession W} {e : Event} (h : ReplacesNothing E s e) :
    step (E.withRaw c) s e = step E s e := by
  cases e with
  | setLogger => rfl
  | packet p => rfl
  | marketLogic =>
    have hreplace : replaceLogic (E.withRaw c) (modifyLogic E (cancelLogic E (heartbeatLogic E s))) =
        replaceLogic E (modifyLogic E (cancelLogic E (heartbeatLogic E s))) := by
      unfold replaceLogic
      rw [run_congr (fun st ro h => replaceStep_withRaw E c h) h]
    calc marketLogic (E.withRaw c) s
        = executionLogic E (replaceLogic (E.withRaw c)
            (modifyLogic E (cancelLogic E (heartbeatLogic E s)))) := rfl
      _ = marketLogic E s := by rw [hreplace]; rfl
  | cancelAll => rfl
  | disconnect => rfl

/-- A replace pass sends what its steps send. -/
theorem out_replaceLogic (s : OuchSession W) : (replaceLogic E s).pendingOutMessages =
    (Machine.run (replaceStep E) (s, []) s.pendingReplace).1.pendingOutMessages := rfl

/-- A replace pass reports no replacement exactly if every step of it cancels. -/
theorem replacements_replaceLogic (s : OuchSession W) :
    replacements (replaceLogic E s).pendingOutMessages = [] ↔
      replacements s.pendingOutMessages = [] ∧ Along (replaceStep E)
        (fun st ro => replaceCancels ro (entry E.ouchOrder st.1 ro.existingToken.str).executedQty = true)
        (s, []) s.pendingReplace := by
  rw [out_replaceLogic]
  refine run_iff_of_step (f := replaceStep E)
    (P := fun st : Pass W => replacements st.1.pendingOutMessages = []) ?_ (s, []) _
  intro st ro
  rcases replacements_replaceStep E st ro with ⟨hcancels, h⟩ | ⟨happlies, m, w, -, h⟩
  · rw [h, and_iff_left hcancels]
  · rw [h]
    exact iff_of_false (List.append_ne_nil_of_right_ne_nil _ (List.cons_ne_nil m []))
      fun hboth => Bool.false_ne_true (happlies.symm.trans hboth.2)

/-- The passes before `replace_logic` report no replacement. -/
theorem replacements_modifyLogic (s : OuchSession W) :
    replacements (modifyLogic E (cancelLogic E (heartbeatLogic E s))).pendingOutMessages =
      replacements s.pendingOutMessages := by
  rw [replacements_of_emits (emits_modifyLogic E _) (by decide),
    replacements_of_emits (emits_cancelLogic E _) (by decide),
    replacements_of_emits (emits_heartbeatLogic E s) (by decide)]

/-- A tick reports the replacements of its replace pass. -/
theorem replacements_marketLogic (s : OuchSession W) :
    replacements (marketLogic E s).pendingOutMessages = replacements (replaceLogic E
      (modifyLogic E (cancelLogic E (heartbeatLogic E s)))).pendingOutMessages :=
  replacements_of_emits (emits_executionLogic E _) (by decide)

/-- A replacement is reported exactly by the ticks that apply one. -/
theorem replacements_step (s : OuchSession W) (e : Event) :
    replacements (step E s e).pendingOutMessages = [] ↔
      replacements s.pendingOutMessages = [] ∧ ReplacesNothing E s e := by
  by_cases he : e = .marketLogic
  · subst he
    show replacements (marketLogic E s).pendingOutMessages = [] ↔ _
    rw [replacements_marketLogic, replacements_replaceLogic, replacements_modifyLogic]
    exact Iff.rfl
  · rw [replacements_of_emits (emits_step E s he) (by decide)]
    have hnothing : ReplacesNothing E s e := by
      cases e with
      | marketLogic => exact absurd rfl he
      | _ => trivial
    exact (and_iff_left hnothing).symm

/-- In memory filled with one byte, every reported replacement displays that byte. -/
theorem display_step (b : UInt8) {s : OuchSession W} (e : Event)
    (h : ∀ m ∈ replacements s.pendingOutMessages, m.display = b) :
    ∀ m ∈ replacements (step (E.withRaw (filled W b)) s e).pendingOutMessages, m.display = b := by
  by_cases he : e = .marketLogic
  · subst he
    show ∀ m ∈ replacements (marketLogic (E.withRaw (filled W b)) s).pendingOutMessages, _
    rw [replacements_marketLogic, out_replaceLogic]
    refine run_invariant (f := replaceStep (E.withRaw (filled W b)))
      (I := fun st : Pass W => ∀ m ∈ replacements st.1.pendingOutMessages, m.display = b) ?_ ?_ _
    · intro st ro hst
      rcases replacements_replaceStep (E.withRaw (filled W b)) st ro with ⟨-, hout⟩ |
        ⟨-, m, w, hm, hout⟩
      · rw [hout]
        exact hst
      · rw [hout]
        exact List.forall_mem_append.mpr ⟨hst, List.forall_mem_singleton.mpr hm⟩
    · rw [replacements_modifyLogic]
      exact h
  · rw [replacements_of_emits (emits_step _ s he) (by decide)]
    exact h

/-- The bytes of a replacement show its `display`, and no other message is as long. -/
theorem display_of_bytes {m : OrderReplaced} {msg : OutMsg}
    (h : msg.bytes = (OutMsg.orderReplaced m).bytes) :
    ∃ m', msg = .orderReplaced m' ∧ m'.display = m.display := by
  have hlength := congrArg List.length h
  cases msg
  case orderReplaced m' =>
    refine ⟨m', rfl, Option.some.inj ?_⟩
    rw [← OrderReplaced.getElem?_display, ← OrderReplaced.getElem?_display]
    exact congrArg (·[51]?) h
  all_goals
    exfalso
    revert hlength
    simp [OutMsg.bytes, OrderReplaced.bytes, OrderAccepted.bytes, length_packet, length_sequenced]

/-- In memory filled with one byte, every replacement of a run displays that byte. -/
theorem display_run (b : UInt8) (w : W) (es : List Event) :
    ∀ m ∈ replacements (run (E.withRaw (filled W b)) w es).pendingOutMessages, m.display = b :=
  run_invariant (f := step (E.withRaw (filled W b)))
    (I := fun s : OuchSession W => ∀ m ∈ replacements s.pendingOutMessages, m.display = b)
    (fun _ e h => display_step E b e h) (s := init E w) (fun _ hm => nomatch hm) es

/-- A run reports no replacement exactly if every tick replaces nothing. -/
theorem replacements_run (w : W) (es : List Event) :
    replacements (run E w es).pendingOutMessages = [] ↔
      Along (step E) (ReplacesNothing E) (init E w) es := by
  have hiff := run_iff_of_step (f := step E)
    (P := fun s : OuchSession W => replacements s.pendingOutMessages = []) (replacements_step E)
    (init E w) es
  exact hiff.trans (and_iff_right rfl)

/-- What OUCH sends is determined exactly when no replacement is applied. -/
theorem initialised_iff (w : W) (es : List Event) :
    Initialised E w es ↔ Along (step E) (ReplacesNothing E) (init E w) es := by
  constructor
  · intro h
    refine (replacements_run E w es).mp ?_
    apply List.eq_nil_iff_forall_not_mem.mpr
    intro m hm
    obtain ⟨msg, hmsg, hsome⟩ := List.mem_filterMap.mp hm
    have hmsg_eq : msg = .orderReplaced m := by
      cases msg
      case orderReplaced m' => exact congrArg OutMsg.orderReplaced (Option.some.inj hsome)
      all_goals exact nomatch hsome
    -- the `display` would be every byte that the memory may be filled with
    have hshows : ∀ b, m.display = b := by
      intro b
      have hbytes : msg.bytes ∈
          (run (E.withRaw (filled W b)) w es).pendingOutMessages.map OutMsg.bytes := by
        rw [h (filled W b) fun w => (E.raw w).1]
        exact List.mem_map_of_mem hmsg
      obtain ⟨msg', hmsg', heq⟩ := List.mem_map.mp hbytes
      obtain ⟨m', rfl, hdisplay⟩ := display_of_bytes (heq.trans (congrArg OutMsg.bytes hmsg_eq))
      rw [← hdisplay]
      exact display_run E b w es m' (List.mem_filterMap.mpr ⟨_, hmsg', rfl⟩)
    exact absurd ((hshows 0).symm.trans (hshows 1)) (by decide)
  · intro h c c'
    have hrun : ∀ c, run (E.withRaw c) w es = run E w es := fun c =>
      run_congr (fun s e he => step_withRaw E c he) h
    rw [hrun c, hrun c']

end OuchSession

/-! ## BOE -/

namespace Boe

/-- Where a message has its `reserved` byte, and the byte, for the messages that have one. -/
def OutMsg.reserved : OutMsg → Option (ℕ × UInt8)
  | loginResponse _ => none
  | serverHeartbeat => none
  | orderAck m => some (46, m.reserved)
  | orderRejected m => some (99, m.reserved)
  | orderModified m => some (46, m.reserved)
  | modifyRejected m => some (99, m.reserved)
  | orderCanceled m => some (39, m.reserved)
  | cancelRejected m => some (99, m.reserved)
  | orderExecution m => some (68, m.reserved)

/-- The reserved byte of a message stands at its place. -/
theorem OutMsg.getElem?_reserved {m : OutMsg} {i : ℕ} {b : UInt8} (h : m.reserved = some (i, b)) :
    m.bytes[i]? = some b := by
  cases m
  case loginResponse => exact nomatch h
  case serverHeartbeat => exact nomatch h
  all_goals
    obtain ⟨rfl, rfl⟩ := Prod.mk.inj (Option.some.inj h)
    refine (getElem?_packet _ _ _ _ _).trans ?_
    simp

/-- The type of a message stands in its header. -/
theorem OutMsg.getElem?_type (m : OutMsg) : m.bytes[4]? = some m.type.code := by
  cases m <;> exact getElem?_packet_type _ _ _ _

/-- Different message types have different codes. -/
theorem OutMsgType.code_injective : Function.Injective OutMsgType.code := by
  intro t u h
  revert h
  cases t <;> cases u <;> simp [OutMsgType.code]

/-- Messages of one type have their `reserved` byte in one place. -/
theorem OutMsg.reserved_fst_eq {m m' : OutMsg} (h : m.type = m'.type) :
    m.reserved.map Prod.fst = m'.reserved.map Prod.fst := by
  cases m <;> cases m' <;> first | rfl | exact nomatch h

/-- The bytes of a message show its `reserved` byte. -/
theorem OutMsg.reserved_of_bytes {m m' : OutMsg} (h : m.bytes = m'.bytes) :
    m.reserved = m'.reserved := by
  have htype : m.type = m'.type := by
    apply OutMsgType.code_injective
    apply Option.some.inj
    rw [← m.getElem?_type, ← m'.getElem?_type, h]
  have hplace := OutMsg.reserved_fst_eq htype
  rcases hm : m.reserved with _ | ⟨i, b⟩
  · rw [hm] at hplace
    exact (Option.map_eq_none_iff.mp hplace.symm).symm
  · rw [hm] at hplace
    obtain ⟨⟨j, b'⟩, hm', hj⟩ := Option.map_eq_some_iff.mp hplace.symm
    obtain rfl : j = i := hj
    have hb : some b = some b' := by
      rw [← OutMsg.getElem?_reserved hm, h, OutMsg.getElem?_reserved hm']
    rw [hm', Option.some.inj hb]

end Boe

namespace BoeSession

open Boe

variable {W : Type} (E : Env W)

/-- The bytes that a run sends do not depend on the memory that the structs are built in. -/
def Initialised (w : W) (es : List Event) : Prop :=
  ∀ c c' : W → Mem, (run (E.withRaw c) w es).pendingOutMessages.map OutMsg.bytes =
    (run (E.withRaw c') w es).pendingOutMessages.map OutMsg.bytes

/-- A visit fills shares: the gate is open, the order is active, and the quantity is not 0. -/
def Fills (st : Pass W) (k : Key) : Prop :=
  ∃ o, st.1.activeOrders.lookup k = some o ∧ (E.gate .execution st.1.env).1 = true ∧
    o.stillActive = true ∧ (E.executionQty (E.gate .execution st.1.env).2).1 ≠ 0

/-- A request gets no answer on receipt. -/
def Unanswered (s : BoeSession W) : Request → Prop
  | .enter _ => False
  | .cancel co =>
    (∃ o, s.activeOrders.lookup co.origToken.str = some o ∧ 0 < o.remainingQty) ∨
      ¬ RejectsCancel E s co
  | .modify mo =>
    ¬ (mo.origToken.str ∉ s.activeOrders ∧ mo.origToken.str ∉ s.finishedOrders ∨
      (E.gate .modifyOrder s.env).1 = false)
  | _ => True

/-- An event has nothing to say about orders: no NewOrder arrives, no request is rejected on receipt,
no tick answers a request or fills an order, and no order is active when all are cancelled. -/
def SaysNothing (s : BoeSession W) : Event → Prop
  | .packet p => ∀ r, request p = some r → Unanswered E s r
  | .marketLogic =>
    s.pendingCancel = [] ∧
      let s := cancelLogic E (heartbeatLogic E s)
      Along (modifyStep E) (fun st mo => mo.origToken.str ∉ st.1.activeOrders) (s, [])
          s.pendingModify ∧
        let s := modifyLogic E s
        let v := E.visit s.activeOrders.keys s.env
        Along (executionStep E) (fun st k => ¬ Fills E st k) (s.inEnv v.2, []) v.1.val
  | .cancelAll =>
    let v := E.visit s.activeOrders.keys s.env
    Along (cancelAllStep E)
      (fun st k => ∀ o, st.1.activeOrders.lookup k = some o → o.stillActive = false)
      (s.inEnv v.2, 0) v.1.val
  | .disconnect => True

/-! ### What does not read the memory -/

/-- A request that gets no answer is handled the same in any memory. -/
theorem handle_withRaw (c : W → Mem) {s : BoeSession W} {r : Request} (h : Unanswered E s r) :
    handle (E.withRaw c) s r = handle E s r := by
  cases r with
  | login req => rfl
  | heartbeat => rfl
  | enter no => exact h.elim
  | cancel co =>
    show cancelOrder (E.withRaw c) s co = cancelOrder E s co
    have hsub : subscript (E.withRaw c).boeOrder s co.origToken.str =
        subscript E.boeOrder s co.origToken.str := rfl
    unfold cancelOrder
    dsimp only
    by_cases hqueue : co.origToken.str ∈ s.activeOrders ∧ 0 < s.remainingAt co.origToken.str
    · rw [if_pos hqueue, if_pos hqueue]
    -- the answer is silence: the token is there behind the subscript, and the gate is open
    rw [if_neg hqueue, if_neg hqueue, hsub, remainingAt_subscript, finishedOrders_subscript]
    have hanswer : ¬ RejectsCancel E s co :=
      h.resolve_left fun hq => hqueue ((queues_iff s co).mpr hq)
    unfold RejectsCancel at hanswer
    rw [← or_assoc, not_or, Bool.not_eq_false] at hanswer
    have hmem := not_not.mpr (mem_subscript E s co.origToken.str)
    rw [if_neg hanswer.1, if_neg hanswer.1, if_neg hmem, if_neg hmem]
    show (if !(E.gate .cancelOrder (subscript E.boeOrder s co.origToken.str).env).1 then _ else _) = _
    rw [hanswer.2]
    rfl
  | modify mo =>
    show modifyOrder (E.withRaw c) s mo = modifyOrder E s mo
    unfold modifyOrder
    dsimp only
    obtain ⟨hknown, hgate⟩ := not_or.mp h
    rw [if_neg hknown, if_neg hknown]
    show (if !(E.gate .modifyOrder s.env).1 then _ else _) = _
    rw [Bool.not_eq_false _ |>.mp hgate]
    rfl

/-- A modification that does not find its order does nothing. -/
theorem modifyStep_of_notMem {st : Pass W} {mo : BoeModifyOrderReq}
    (h : mo.origToken.str ∉ st.1.activeOrders) : modifyStep E st mo = st := by
  unfold modifyStep
  rw [KeyedMap.lookup_eq_none.mpr h]

/-- A visit that does not fill is the same in any memory. -/
theorem executionStep_withRaw (c : W → Mem) {st : Pass W} {k : Key} (h : ¬ Fills E st k) :
    executionStep (E.withRaw c) st k = executionStep E st k := by
  unfold executionStep
  rcases hlook : st.1.activeOrders.lookup k with _ | o
  · rfl
  dsimp only
  show (if !(E.gate .execution st.1.env).1 then _ else _) = _
  rcases hgate : (E.gate .execution st.1.env).1 with _ | _
  · rfl
  rcases hactive : o.stillActive with _ | _
  · rfl
  have hzero : (E.executionQty (E.gate .execution st.1.env).2).1 = 0 := by
    by_contra hne
    exact h ⟨o, hlook, hgate, hactive, hne⟩
  have hnone : ∀ (E' : Env W) (s : BoeSession W) (n : ℤ), n = 0 →
      constructOrderExecuted E' s k o n = s := fun E' s n hn => if_pos hn
  simp only [Bool.not_true, Bool.false_eq_true, if_false, if_true]
  exact congrArg (·, st.2) ((hnone (E.withRaw c) _ _ hzero).trans (hnone E _ _ hzero).symm)

/-- A step of `cancel_all` that meets no active order is the same in any memory. -/
theorem cancelAllStep_withRaw (c : W → Mem) {st : BoeSession W × ℕ} {k : Key}
    (h : ∀ o, st.1.activeOrders.lookup k = some o → o.stillActive = false) :
    cancelAllStep (E.withRaw c) st k = cancelAllStep E st k := by
  unfold cancelAllStep
  rcases hlook : st.1.activeOrders.lookup k with _ | o
  · rfl
  · dsimp only
    rw [h o hlook]
    rfl

/-- An event with nothing to say is the same in any memory. -/
theorem step_withRaw (c : W → Mem) {s : BoeSession W} {e : Event} (h : SaysNothing E s e) :
    step (E.withRaw c) s e = step E s e := by
  cases e with
  | packet p =>
    show handlePacket (E.withRaw c) s p = handlePacket E s p
    rw [handlePacket_eq, handlePacket_eq]
    rcases hr : request p with _ | r
    · rfl
    · exact handle_withRaw E c (h r hr)
  | marketLogic =>
    obtain ⟨hcancel, hmodify, hexecute⟩ := h
    have hc : cancelLogic (E.withRaw c) (heartbeatLogic E s) = cancelLogic E (heartbeatLogic E s) := by
      have hnone : (heartbeatLogic E s).pendingCancel = [] :=
        (idle_heartbeatLogic E s).pendingCancel.trans hcancel
      unfold cancelLogic Session.cancelLogic
      rw [hnone, run_nil, run_nil]
    have hm : modifyLogic (E.withRaw c) (cancelLogic E (heartbeatLogic E s)) =
        modifyLogic E (cancelLogic E (heartbeatLogic E s)) := by
      unfold modifyLogic Session.modifyLogic
      rw [run_congr (fun st mo hmo => (modifyStep_of_notMem (E.withRaw c) hmo).trans
        (modifyStep_of_notMem E hmo).symm) hmodify]
    have he : executionLogic (E.withRaw c) (modifyLogic E (cancelLogic E (heartbeatLogic E s))) =
        executionLogic E (modifyLogic E (cancelLogic E (heartbeatLogic E s))) :=
      congrArg finishPass (run_congr (fun st k hk => executionStep_withRaw E c hk) hexecute)
    calc marketLogic (E.withRaw c) s
        = executionLogic (E.withRaw c) (modifyLogic (E.withRaw c)
            (cancelLogic (E.withRaw c) (heartbeatLogic E s))) := rfl
      _ = marketLogic E s := by rw [hc, hm, he]; rfl
  | cancelAll =>
    show (cancelAll (E.withRaw c) s).1 = (cancelAll E s).1
    exact congrArg (fun st : BoeSession W × ℕ => { st.1 with activeOrders := ∅ })
      (run_congr (fun st k hk => cancelAllStep_withRaw E c hk) h)
  | disconnect => rfl

/-! ### What is answered and reported -/

/-- The `reserved` bytes sent so far. -/
def reservedBytes (out : List OutMsg) : List UInt8 :=
  out.filterMap fun m => m.reserved.map Prod.snd

/-- A new message with a `reserved` byte. -/
theorem reservedBytes_ne_nil {s s' : BoeSession W} {m : OutMsg} {x : ℕ × UInt8}
    (h : s'.pendingOutMessages = s.pendingOutMessages ++ [m]) (hm : m.reserved = some x) :
    reservedBytes s'.pendingOutMessages ≠ [] := by
  have hlast : reservedBytes [m] = [x.2] := by
    unfold reservedBytes
    rw [List.filterMap_cons_some (b := x.2) (by rw [hm]; rfl), List.filterMap_nil]
  rw [h, reservedBytes, List.filterMap_append]
  rw [reservedBytes] at hlast
  rw [hlast]
  exact List.append_ne_nil_of_right_ne_nil _ (List.cons_ne_nil _ _)

/-- A request leaves no reserved bytes exactly if it gets no answer. -/
theorem reservedBytes_handle (s : BoeSession W) (r : Request) :
    reservedBytes (handle E s r).pendingOutMessages = [] ↔
      reservedBytes s.pendingOutMessages = [] ∧ Unanswered E s r := by
  have hquiet : ∀ {s' : BoeSession W} {P : Prop}, P →
      reservedBytes s'.pendingOutMessages = reservedBytes s.pendingOutMessages →
      (reservedBytes s'.pendingOutMessages = [] ↔ reservedBytes s.pendingOutMessages = [] ∧ P) :=
    fun hP h => by rw [h, and_iff_left hP]
  have hloud : ∀ {s' : BoeSession W} {P : Prop} {m : OutMsg} {x : ℕ × UInt8}, ¬ P →
      s'.pendingOutMessages = s.pendingOutMessages ++ [m] → m.reserved = some x →
      (reservedBytes s'.pendingOutMessages = [] ↔ reservedBytes s.pendingOutMessages = [] ∧ P) :=
    fun hP h hm => iff_of_false (reservedBytes_ne_nil h hm) fun hboth => hP hboth.2
  cases r with
  | login req =>
    obtain ⟨m, -, -, h⟩ := handleLoginRequest_out E s req
    refine hquiet trivial ?_
    rw [handle, h, reservedBytes, List.filterMap_append]
    exact List.append_nil _
  | heartbeat => exact hquiet trivial rfl
  | enter no =>
    rcases enterOrder_cases E s no with ⟨-, w, m, h⟩ | ⟨-, w, d, m, -, -, -, h⟩ <;> rw [handle, h]
    · exact hloud id rfl rfl
    · exact hloud id rfl rfl
  | cancel co =>
    rcases cancelOrder_cases E s co with ⟨hqueue, h⟩ | ⟨hnot, w, ⟨hsilent, h⟩ | ⟨hreject, m, h⟩⟩ <;>
      rw [handle, h]
    · exact hquiet (.inl hqueue) rfl
    · exact hquiet (.inr hsilent) rfl
    · exact hloud (fun hun => hun.elim hnot fun hsilent => hsilent hreject) rfl rfl
  | modify mo =>
    rcases modifyOrder_cases E s mo with ⟨href, w, m, h⟩ | ⟨hknown, hgate, w, h⟩ <;> rw [handle, h]
    · exact hloud (fun hun => hun href) rfl rfl
    · refine hquiet (fun hun => hun.elim hknown fun hg => ?_) rfl
      exact Bool.noConfusion (hgate.symm.trans hg)

/-- A pending cancel is always answered. -/
theorem reservedBytes_cancelLogic (s : BoeSession W) :
    reservedBytes (cancelLogic E s).pendingOutMessages = [] ↔
      reservedBytes s.pendingOutMessages = [] ∧ s.pendingCancel = [] := by
  have hrun := run_iff_of_step (f := cancelStep E) (C := fun _ _ => False)
    (P := fun st : Pass W => reservedBytes st.1.pendingOutMessages = []) (fun st co => by
      rcases cancelStep_cases E st co with ⟨-, w, m, h⟩ | ⟨-, w, m, -, h⟩ <;> rw [h]
      · exact iff_of_false (reservedBytes_ne_nil (s := st.1) rfl rfl) fun hboth => hboth.2
      · exact iff_of_false (reservedBytes_ne_nil (s := st.1) rfl rfl) fun hboth => hboth.2)
    (s, []) s.pendingCancel
  refine hrun.trans (and_congr_right fun _ => ?_)
  cases s.pendingCancel with
  | nil => exact iff_of_true trivial rfl
  | cons co cos => exact iff_of_false (fun h => h.1) (List.cons_ne_nil co cos)

/-- A pending modification is answered if it finds its order. -/
theorem reservedBytes_modifyLogic (s : BoeSession W) :
    reservedBytes (modifyLogic E s).pendingOutMessages = [] ↔
      reservedBytes s.pendingOutMessages = [] ∧
        Along (modifyStep E) (fun st mo => mo.origToken.str ∉ st.1.activeOrders) (s, [])
          s.pendingModify := by
  refine run_iff_of_step (f := modifyStep E)
    (P := fun st : Pass W => reservedBytes st.1.pendingOutMessages = []) ?_ (s, []) _
  intro st mo
  rcases modifyStep_cases E st mo with ⟨hnot, h⟩ | ⟨o, ho, w, A, bo, m, -, -, -, h⟩ <;> rw [h]
  · exact (and_iff_left hnot).symm
  · refine iff_of_false (reservedBytes_ne_nil (s := st.1) rfl rfl) fun hboth => ?_
    exact hboth.2 (KeyedMap.mem_of_lookup ho)

/-- A visit is reported if it fills shares. -/
theorem reservedBytes_executionStep (st : Pass W) (k : Key) :
    reservedBytes (executionStep E st k).1.pendingOutMessages = [] ↔
      reservedBytes st.1.pendingOutMessages = [] ∧ ¬ Fills E st k := by
  by_cases hfill : Fills E st k
  · obtain ⟨o, ho, hgate, hactive, hqty⟩ := hfill
    refine iff_of_false ?_ fun hboth => hboth.2 ⟨o, ho, hgate, hactive, hqty⟩
    unfold executionStep
    simp only [ho, hgate, hactive, Bool.not_true, Bool.false_eq_true, if_false, if_true]
    unfold constructOrderExecuted
    rw [if_neg hqty]
    exact reservedBytes_ne_nil (s := st.1) rfl rfl
  · rw [and_iff_left hfill]
    have hout : (executionStep E st k).1.pendingOutMessages = st.1.pendingOutMessages := by
      rcases executionStep_cases E st k with ⟨-, h⟩ | ⟨o, ho, w, ⟨-, h⟩ | ⟨hgate, hactive, h⟩ |
        ⟨-, -, h⟩⟩
      · rw [h]
      · rw [h]
        rfl
      · have hzero : (E.executionQty (E.gate .execution st.1.env).2).1 = 0 := by
          by_contra hne
          exact hfill ⟨o, ho, hgate, hactive, hne⟩
        unfold executionStep
        simp only [ho, hgate, hactive, Bool.not_true, Bool.false_eq_true, if_false, if_true]
        unfold constructOrderExecuted
        rw [if_pos hzero]
      · rw [h]
        rfl
    rw [hout]

/-- An execution pass leaves no reserved bytes exactly if it fills nothing. -/
theorem reservedBytes_executionLogic (s : BoeSession W) :
    reservedBytes (executionLogic E s).pendingOutMessages = [] ↔
      reservedBytes s.pendingOutMessages = [] ∧
        let v := E.visit s.activeOrders.keys s.env
        Along (executionStep E) (fun st k => ¬ Fills E st k) (s.inEnv v.2, []) v.1.val :=
  run_iff_of_step (f := executionStep E)
    (P := fun st : Pass W => reservedBytes st.1.pendingOutMessages = [])
    (reservedBytes_executionStep E) _ _

/-- `cancel_all` leaves no reserved bytes exactly if it meets no active order. -/
theorem reservedBytes_cancelAll (s : BoeSession W) :
    reservedBytes (cancelAll E s).1.pendingOutMessages = [] ↔
      reservedBytes s.pendingOutMessages = [] ∧ SaysNothing E s .cancelAll := by
  refine run_iff_of_step (f := cancelAllStep E)
    (P := fun st : BoeSession W × ℕ => reservedBytes st.1.pendingOutMessages = []) ?_ _ _
  intro st k
  rcases cancelAllStep_cases E st k with ⟨hnone, h⟩ | ⟨o, ho, hactive, w, m, -, h⟩ <;> rw [h]
  · exact (and_iff_left hnone).symm
  · refine iff_of_false (reservedBytes_ne_nil (s := st.1) rfl rfl) fun hboth => ?_
    exact Bool.noConfusion (hactive.symm.trans (hboth.2 o ho))

/-- A message with a `reserved` byte is sent exactly by the events that have something to say. -/
theorem reservedBytes_step (s : BoeSession W) (e : Event) :
    reservedBytes (step E s e).pendingOutMessages = [] ↔
      reservedBytes s.pendingOutMessages = [] ∧ SaysNothing E s e := by
  cases e with
  | packet p =>
    rcases step_packet E s p with ⟨hr, h⟩ | ⟨r, hr, h⟩ <;> rw [h]
    · refine (and_iff_left ?_).symm
      exact fun r hr' => nomatch hr.symm.trans hr'
    · rw [reservedBytes_handle]
      refine and_congr_right fun _ => ⟨fun hun r' hr' => ?_, fun hall => hall r hr⟩
      obtain rfl : r = r' := Option.some.inj (hr.symm.trans hr')
      exact hun
  | marketLogic =>
    have hbeat : reservedBytes (heartbeatLogic E s).pendingOutMessages =
        reservedBytes s.pendingOutMessages := by
      refine (emits_heartbeatLogic E s).filterMap fun m hm => ?_
      cases m
      case serverHeartbeat => rfl
      all_goals simp [OutMsg.type] at hm
    show reservedBytes (executionLogic E (modifyLogic E (cancelLogic E
      (heartbeatLogic E s)))).pendingOutMessages = [] ↔ _
    rw [reservedBytes_executionLogic, reservedBytes_modifyLogic, reservedBytes_cancelLogic, hbeat,
      (idle_heartbeatLogic E s).pendingCancel, and_assoc, and_assoc]
    exact Iff.rfl
  | cancelAll => exact reservedBytes_cancelAll E s
  | disconnect => exact (and_iff_left trivial).symm

/-! ### What the memory shows in -/

/-- The `reserved` byte of a message, if it has one, is `b`. -/
def Shows (b : UInt8) (m : OutMsg) : Prop := ∀ i x, m.reserved = some (i, x) → x = b

/-- The session has sent messages that show `b`. -/
abbrev SendsShowing (b : UInt8) (s s' : BoeSession W) : Prop :=
  Appends (Shows b) s.pendingOutMessages s'.pendingOutMessages

/-- A message built in memory filled with one byte. -/
theorem sends_showing {b : UInt8} {s s' : BoeSession W} {m : OutMsg} {i : ℕ}
    (h : s'.pendingOutMessages = s.pendingOutMessages ++ [m]) (hm : m.reserved = some (i, b)) :
    SendsShowing b s s' := by
  rw [SendsShowing, h]
  refine appends_singleton fun j x hx => ?_
  rw [hm] at hx
  exact (Prod.mk.inj (Option.some.inj hx)).2.symm

/-- A subscript sends nothing. -/
theorem out_subscript (s : BoeSession W) (k : Key) :
    (subscript E.boeOrder s k).pendingOutMessages = s.pendingOutMessages := by
  obtain ⟨w, h⟩ := subscript_eq E.boeOrder s k
  rw [h]
  rfl

/-- An execution shows the byte that fills the memory. -/
theorem out_constructOrderExecuted (s : BoeSession W) (k : Key) (o : BoeOrder) (n : ℤ) :
    SendsShowing b s (constructOrderExecuted (E.withRaw (filled W b)) s k o n) := by
  unfold constructOrderExecuted
  split
  · exact Appends.refl _ _
  · exact sends_showing rfl rfl

/-- The answers to a request show the byte that fills the memory. -/
theorem showing_handle (b : UInt8) (s : BoeSession W) (r : Request) :
    SendsShowing b s (handle (E.withRaw (filled W b)) s r) := by
  cases r with
  | login req =>
    obtain ⟨m, -, -, h⟩ := handleLoginRequest_out (E.withRaw (filled W b)) s req
    rw [SendsShowing, handle, h]
    exact appends_singleton fun i x hx => absurd hx (Option.some_ne_none _).symm
  | heartbeat => exact Appends.refl _ _
  | enter no =>
    show SendsShowing b s (enterOrder _ s no)
    unfold enterOrder
    dsimp only
    split
    · exact sends_showing rfl rfl
    split
    · exact sends_showing rfl rfl
    · exact sends_showing rfl rfl
  | cancel co =>
    have hsub : SendsShowing b s (subscript (E.withRaw (filled W b)).boeOrder s co.origToken.str) :=
      Appends.of_eq (out_subscript _ s co.origToken.str)
    show SendsShowing b s (cancelOrder _ s co)
    unfold cancelOrder
    dsimp only
    split
    · exact Appends.refl _ _
    generalize subscript (E.withRaw (filled W b)).boeOrder s co.origToken.str = s' at hsub
    refine hsub.trans ?_
    split
    · exact sends_showing (s := s') rfl rfl
    split
    · exact sends_showing (s := s') rfl rfl
    split
    · exact sends_showing (s := s') rfl rfl
    · exact Appends.refl _ _
  | modify mo =>
    show SendsShowing b s (modifyOrder _ s mo)
    unfold modifyOrder
    dsimp only
    split
    · exact sends_showing rfl rfl
    split
    · exact sends_showing rfl rfl
    · exact Appends.refl _ _

/-- The answer to a queued cancel shows the byte that fills the memory. -/
theorem showing_cancelStep (b : UInt8) (st : Pass W) (co : BoeCancelOrderReq) :
    SendsShowing b st.1 (cancelStep (E.withRaw (filled W b)) st co).1 := by
  unfold cancelStep
  split
  · exact sends_showing rfl rfl
  dsimp only
  split
  · exact sends_showing rfl rfl
  · exact sends_showing rfl rfl

/-- The report of a modification shows the byte that fills the memory. -/
theorem showing_modifyStep (b : UInt8) (st : Pass W) (mo : BoeModifyOrderReq) :
    SendsShowing b st.1 (modifyStep (E.withRaw (filled W b)) st mo).1 := by
  unfold modifyStep
  rcases st.1.activeOrders.lookup mo.origToken.str with _ | o
  · exact Appends.refl _ _
  dsimp only
  -- two subscripts, with the swap and the erasure between them
  have hfirst := out_subscript (E.withRaw (filled W b)) (st.1.withActive
    (st.1.activeOrders.insert mo.origToken.str (modified o mo))) mo.token.str
  unfold withActive at hfirst
  generalize subscript (E.withRaw (filled W b)).boeOrder _ mo.token.str = s₁ at hfirst ⊢
  have hsecond := out_subscript (E.withRaw (filled W b)) (s₁.withActive
    ((KeyedMap.swap mo.token.str mo.origToken.str s₁.activeOrders).erase mo.origToken.str))
    mo.token.str
  unfold withActive at hsecond
  generalize subscript (E.withRaw (filled W b)).boeOrder _ mo.token.str = s₂ at hsecond ⊢
  refine (Appends.of_eq (hsecond.trans hfirst)).trans ?_
  rcases s₂.activeOrders.lookup mo.token.str with _ | bo
  · exact Appends.refl _ _
  · exact sends_showing rfl rfl

/-- The report of a visit shows the byte that fills the memory. -/
theorem showing_executionStep (b : UInt8) (st : Pass W) (k : Key) :
    SendsShowing b st.1 (executionStep (E.withRaw (filled W b)) st k).1 := by
  unfold executionStep
  rcases st.1.activeOrders.lookup k with _ | o
  · exact Appends.refl _ _
  dsimp only
  split
  · exact Appends.refl _ _
  split
  · exact out_constructOrderExecuted E (st.1.inEnv _) k o _
  · exact Appends.refl _ _

/-- The report of `cancel_all` shows the byte that fills the memory. -/
theorem showing_cancelAllStep (b : UInt8) (st : BoeSession W × ℕ) (k : Key) :
    SendsShowing b st.1 (cancelAllStep (E.withRaw (filled W b)) st k).1 := by
  unfold cancelAllStep
  rcases st.1.activeOrders.lookup k with _ | o
  · exact Appends.refl _ _
  dsimp only
  split
  · exact sends_showing rfl rfl
  · exact Appends.refl _ _

/-- What an event sends shows the byte that fills the memory. -/
theorem showing_step (b : UInt8) (s : BoeSession W) (e : Event) :
    SendsShowing b s (step (E.withRaw (filled W b)) s e) := by
  cases e with
  | packet p =>
    rcases step_packet (E.withRaw (filled W b)) s p with ⟨-, h⟩ | ⟨r, -, h⟩ <;> rw [h]
    · exact Appends.refl _ _
    · exact showing_handle E b s r
  | marketLogic =>
    generalize hE : E.withRaw (filled W b) = E'
    have hbeat : SendsShowing b s (heartbeatLogic E' s) := by
      refine (emits_heartbeatLogic E' s).imp fun m hm => ?_
      cases m
      case serverHeartbeat => exact fun i x hx => nomatch hx
      all_goals simp [OutMsg.type] at hm
    have hcancel : ∀ s, SendsShowing b s (cancelLogic E' s) := fun s =>
      appends_run (g := fun st : Pass W => st.1.pendingOutMessages)
        (fun st co => hE ▸ showing_cancelStep E b st co) (s, []) s.pendingCancel
    have hmodify : ∀ s, SendsShowing b s (modifyLogic E' s) := fun s =>
      appends_run (g := fun st : Pass W => st.1.pendingOutMessages)
        (fun st mo => hE ▸ showing_modifyStep E b st mo) (s, []) s.pendingModify
    have hexecute : ∀ s, SendsShowing b s (executionLogic E' s) := fun s =>
      appends_run (g := fun st : Pass W => st.1.pendingOutMessages)
        (fun st k => hE ▸ showing_executionStep E b st k)
        (s.inEnv (E'.visit s.activeOrders.keys s.env).2, [])
        (E'.visit s.activeOrders.keys s.env).1.val
    exact ((hbeat.trans (hcancel _)).trans (hmodify _)).trans (hexecute _)
  | cancelAll =>
    exact appends_run (g := fun st : BoeSession W × ℕ => st.1.pendingOutMessages)
      (showing_cancelAllStep E b)
      (s.inEnv ((E.withRaw (filled W b)).visit s.activeOrders.keys s.env).2, 0)
      ((E.withRaw (filled W b)).visit s.activeOrders.keys s.env).1.val
  | disconnect => exact Appends.refl _ _

/-- In memory filled with one byte, every `reserved` byte of a run is that byte. -/
theorem showing_run (b : UInt8) (w : W) (es : List Event) :
    ∀ m ∈ (run (E.withRaw (filled W b)) w es).pendingOutMessages, Shows b m :=
  (appends_run (g := pendingOutMessages) (showing_step E b) (init _ w) es).forall_mem
    (List.forall_mem_nil _)

/-- A run leaves no reserved bytes exactly if no event has anything to say. -/
theorem reservedBytes_run (w : W) (es : List Event) :
    reservedBytes (run E w es).pendingOutMessages = [] ↔
      Along (step E) (SaysNothing E) (init E w) es := by
  have hiff := run_iff_of_step (f := step E)
    (P := fun s : BoeSession W => reservedBytes s.pendingOutMessages = []) (reservedBytes_step E)
    (init E w) es
  exact hiff.trans (and_iff_right rfl)

/-- What BOE sends is determined exactly when no event has anything to say about orders. -/
theorem initialised_iff (w : W) (es : List Event) :
    Initialised E w es ↔ Along (step E) (SaysNothing E) (init E w) es := by
  have hrun : ∀ c, Along (step E) (SaysNothing E) (init E w) es →
      run (E.withRaw c) w es = run E w es := fun c h =>
    run_congr (fun s e he => step_withRaw E c he) h
  constructor
  · intro h
    refine (reservedBytes_run E w es).mp ?_
    unfold reservedBytes
    rw [List.filterMap_eq_nil_iff]
    intro m hm
    rw [Option.map_eq_none_iff]
    by_contra hres
    obtain ⟨⟨i, x⟩, hx⟩ := Option.ne_none_iff_exists'.mp hres
    -- the `reserved` byte would be every byte that the memory may be filled with
    have hshows : ∀ b, x = b := by
      intro b
      have hbytes : m.bytes ∈
          (run (E.withRaw (filled W b)) w es).pendingOutMessages.map OutMsg.bytes := by
        rw [h (filled W b) fun w => (E.raw w).1]
        exact List.mem_map_of_mem hm
      obtain ⟨m', hm', heq⟩ := List.mem_map.mp hbytes
      exact showing_run E b w es m' hm' i x ((OutMsg.reserved_of_bytes heq).trans hx)
    exact absurd ((hshows 0).symm.trans (hshows 1)) (by decide)
  · intro h c c'
    rw [hrun c h, hrun c' h]

end BoeSession

/-- **No uninitialised byte reaches the wire** exactly in the runs in which OUCH applies no replacement,
and in which nothing happens that BOE has to answer or report about an order. -/
theorem initialised_iff_runs {W : Type} (E : Env W) (w : W) :
    (∀ es, OuchSession.Initialised E w es ↔
      Along (OuchSession.step E) (OuchSession.ReplacesNothing E) (OuchSession.init E w) es) ∧
    (∀ es, BoeSession.Initialised E w es ↔
      Along (BoeSession.step E) (BoeSession.SaysNothing E) (BoeSession.init E w) es) :=
  ⟨OuchSession.initialised_iff E w, BoeSession.initialised_iff E w⟩

/-- A replaced OUCH order and a new BOE order go out with a byte of whatever the memory held. -/
theorem not_initialised :
    (¬ ∀ es, OuchSession.Initialised quietEnv () es) ∧
      ¬ ∀ es, BoeSession.Initialised quietEnv () es := by
  constructor
  · intro h
    have hbytes := h (OuchSession.loggedIn ++ [OuchSession.enterPacket 'a' 100,
      OuchSession.replacePacket 'a' 'b' 50, .marketLogic]) (filled Unit 0) (filled Unit 1)
    revert hbytes
    decide +kernel
  · intro h
    have hbytes := h [BoeSession.newPacket 'a' [100, 0, 0, 0]] (filled Unit 0) (filled Unit 1)
    revert hbytes
    decide +kernel

end Evtsim
