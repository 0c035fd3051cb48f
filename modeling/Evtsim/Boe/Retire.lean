import Evtsim.Boe.Emission

/-!
# How an order leaves a `boe_session`

For a token that no modification names: an acknowledged order that leaves `active_orders` has been
reported cancelled in the same event, or all of its quantity has been reported executed.
`still_active` also asks whether at most 1000000 shares remain, so `execution_logic` retires a larger
order that nothing has happened to.
-/

namespace Evtsim

open Wire Boe Machine Log Session

namespace BoeSession

variable {W : Type} (E : Env W)

/-! ## The account of a token -/

/-- The acknowledged quantity of an order and the shares reported executed since, after one more
message. -/
def account (t : Token) (x : Option (ℕ × ℕ)) : Boe.OutMsg → Option (ℕ × ℕ)
  | .orderAck m => if m.token = t then some (m.leavesQty.toNat, 0) else x
  | .orderExecution m =>
    if m.token = t then x.map fun p => (p.1, p.2 + m.lastShares.toNat) else x
  | _ => x

/-- The account after what `s'` has sent beyond `s`. -/
def accountAt (t : Token) (x : Option (ℕ × ℕ)) (s s' : BoeSession W) : Option (ℕ × ℕ) :=
  (added s.pendingOutMessages s'.pendingOutMessages).foldl (account t) x

/-- A session with the account of the order that is active under the token. -/
structure Retirement (W : Type) where
  boe : BoeSession W
  live : Option (ℕ × ℕ)

namespace Retirement

def init (w : W) : Retirement W := { boe := BoeSession.init E w, live := none }

/-- One event; the account ends with the order. -/
def step (t : Token) (a : Retirement W) (e : Event) : Retirement W :=
  let s := BoeSession.step E a.boe e
  { boe := s, live := if t.str ∈ s.activeOrders then accountAt t a.live a.boe s else none }

/-- If the order of the token leaves the active orders, its cancellation has been sent in the same
event, or it is held as finished with nothing left and all of it has been reported executed. -/
def LeavesWell (t : Token) (a : Retirement W) (e : Event) : Prop :=
  let s := BoeSession.step E a.boe e
  ∀ q x, accountAt t a.live a.boe s = some (q, x) → t.str ∉ s.activeOrders →
    (∃ m, .orderCanceled m ∈ added a.boe.pendingOutMessages s.pendingOutMessages ∧ m.token = t) ∨
      x = q ∧ ∃ o, s.finishedOrders.lookup t.str = some o ∧ o.remainingQty = 0

/-- While the order of the token is active: no modification retires an order held under another key
that carries the token too; `execution_logic` does not look at the order while more than 1000000 shares
of it remain, and fills no other order that carries the token. -/
def Ordinary (t : Token) (a : Retirement W) : Event → Prop
  | .marketLogic =>
    a.live ≠ none →
      Along (modifyStep E) (fun st mo => ∀ o ∈ st.1.activeOrders.lookup mo.origToken.str,
          (mo.qty.toNat : ℤ) ≤ o.executedQty → o.token ≠ t)
        (modifyStart E a.boe) (modifyStart E a.boe).1.pendingModify ∧
      let s := modifyLogic E (modifyStart E a.boe).1
      let v := E.visit s.activeOrders.keys s.env
      Along (executionStep E) (fun st k => ∀ o ∈ st.1.activeOrders.lookup k,
          (E.gate .execution st.1.env).1 = true →
            (k = t.str → o.remainingQty ≤ 1000000) ∧
            (k ≠ t.str → o.stillActive = true → o.token ≠ t))
        (s.inEnv v.2, []) v.1.val
  | _ => True

instance (t : Token) (a : Retirement W) : ∀ e, Decidable (Ordinary E t a e)
  | .marketLogic => inferInstanceAs (Decidable (a.live ≠ none → _ ∧ _))
  | .packet _ => isTrue trivial
  | .cancelAll => isTrue trivial
  | .disconnect => isTrue trivial

end Retirement

/-- A request to modify an order of `t`, or to move another one there. -/
def Request.names (t : Token) : Request → Bool
  | .modify mo => mo.origToken = t || mo.token = t
  | _ => false

/-- Events without `cancel_all` in which no modification names `t`. -/
def spares (t : Token) : Event → Bool
  | .cancelAll => false
  | .packet p => (request p).all fun r => !r.names t
  | _ => true

namespace Retirement

/-! ## Accounts -/

/-- Only acknowledgements and executions are on the account of a token. -/
theorem account_of_type {t : Token} {m : Boe.OutMsg} (hack : m.type ≠ .orderAck)
    (hexe : m.type ≠ .orderExecution) (x : Option (ℕ × ℕ)) : account t x m = x := by
  cases m with
  | orderAck _ => exact absurd rfl hack
  | orderExecution _ => exact absurd rfl hexe
  | _ => rfl

/-- Messages that are not on the account leave it alone. -/
theorem foldl_account {t : Token} {ms : List Boe.OutMsg} {x : Option (ℕ × ℕ)}
    (h : ∀ m ∈ ms, account t x m = x) : ms.foldl (account t) x = x := by
  induction ms with
  | nil => rfl
  | cons m ms ih =>
    rw [List.foldl_cons, h m List.mem_cons_self]
    exact ih fun m' hm' => h m' (List.mem_cons_of_mem m hm')

/-- What sends neither acknowledgements nor executions leaves the account alone. -/
theorem accountAt_of_emits {t : Token} {x : Option (ℕ × ℕ)} {s s' : BoeSession W}
    {types : List OutMsgType} (h : Emits types s s') (hack : .orderAck ∉ types)
    (hexe : .orderExecution ∉ types) : accountAt t x s s' = x := by
  obtain ⟨ms, hout, hms⟩ := h
  unfold accountAt
  rw [hout, added_append]
  refine foldl_account fun m hm => account_of_type (fun h => hack ?_) (fun h => hexe ?_) x
  · exact h ▸ hms m hm
  · exact h ▸ hms m hm

/-- Where nothing is sent the account stays. -/
theorem accountAt_self (t : Token) (x : Option (ℕ × ℕ)) (s : BoeSession W) :
    accountAt t x s s = x := by
  unfold accountAt
  rw [added_self]
  rfl

/-- Accounts go on where they have got to. -/
theorem accountAt_trans {t : Token} {x : Option (ℕ × ℕ)} {s s' s'' : BoeSession W}
    {types types' : List OutMsgType} (h : Emits types s s') (h' : Emits types' s' s'') :
    accountAt t x s s'' = accountAt t (accountAt t x s s') s' s'' := by
  obtain ⟨ms, hout, -⟩ := h
  obtain ⟨ns, hout', -⟩ := h'
  unfold accountAt
  rw [hout', hout, List.append_assoc, added_append, added_append, ← List.append_assoc,
    added_append, List.foldl_append]

/-- One message goes to the account behind those that are not on it. -/
theorem accountAt_emit {t : Token} {x : Option (ℕ × ℕ)} {s s' s'' : BoeSession W}
    {types : List OutMsgType} (h : Emits types s s') {m : Boe.OutMsg}
    (hm : s''.pendingOutMessages = s'.pendingOutMessages ++ [m]) :
    accountAt t x s s'' = account t (accountAt t x s s') m := by
  obtain ⟨ms, hout, -⟩ := h
  unfold accountAt
  rw [hm, hout, List.append_assoc, added_append, added_append, List.foldl_append]
  rfl

/-! ## The cancel pass -/

/-- What a cancel pass takes out of the book it has reported. -/
theorem cancelLogic_reports (s : BoeSession W) (t : Token) :
    (cancelLogic E s).activeOrders.lookup t.str = s.activeOrders.lookup t.str ∨
      (cancelLogic E s).activeOrders.lookup t.str = none ∧
        ∃ m, .orderCanceled m ∈ added s.pendingOutMessages (cancelLogic E s).pendingOutMessages ∧
          m.token = t := by
  -- what is collected has been reported; the invariant says so of every prefix of the queue
  have hrun := run_invariant (f := cancelStep E)
    (I := fun st : Pass W => st.1.activeOrders = s.activeOrders ∧
      ∃ ms, st.1.pendingOutMessages = s.pendingOutMessages ++ ms ∧
        ∀ k ∈ st.2, ∃ m, .orderCanceled m ∈ ms ∧ m.token.str = k) ?_
    (s := (s, [])) ⟨rfl, [], (List.append_nil _).symm, List.forall_mem_nil _⟩ s.pendingCancel
  · obtain ⟨hact, ms, hout, hdone⟩ := hrun
    generalize hst : Machine.run (cancelStep E) (s, []) s.pendingCancel = st at hact hout hdone
    have hend : (cancelLogic E s).activeOrders.lookup t.str =
        (finishPass st).activeOrders.lookup t.str := by
      rw [← hst]
      rfl
    have hsent : (cancelLogic E s).pendingOutMessages = s.pendingOutMessages ++ ms := by
      rw [← hout, ← hst]
      rfl
    by_cases hk : t.str ∈ st.2
    · right
      rw [hend, lookup_finishPass_of_mem hk]
      refine ⟨rfl, ?_⟩
      obtain ⟨m, hm, hmk⟩ := hdone _ hk
      rw [hsent, added_append]
      exact ⟨m, hm, TokenOf.str_inj.mp hmk⟩
    · left
      rw [hend, lookup_finishPass_of_notMem hk, hact]
  · rintro st co ⟨hact, ms, hout, hdone⟩
    rcases cancelStep_cases E st co with ⟨-, w, m, hs⟩ | ⟨-, w, m, hm, hs⟩
    · rw [hs]
      refine ⟨hact, ms ++ [.cancelRejected m], ?_, fun k hk => ?_⟩
      · rw [emit_out, hout, List.append_assoc]
      · obtain ⟨m', hm', hk'⟩ := hdone k hk
        exact ⟨m', List.mem_append_left _ hm', hk'⟩
    · rw [hs]
      refine ⟨hact, ms ++ [.orderCanceled m], ?_, fun k hk => ?_⟩
      · rw [emit_out, hout, List.append_assoc]
      · rcases List.mem_append.mp hk with hk | hk
        · obtain ⟨m', hm', hk'⟩ := hdone k hk
          exact ⟨m', List.mem_append_left _ hm', hk'⟩
        · rw [List.mem_singleton.mp hk, ← hm]
          exact ⟨m, List.mem_append_right _ (List.mem_singleton_self _), rfl⟩

/-! ## The modify pass -/

/-- A modification moves nothing else. -/
theorem lookup_modifyStep (st : Pass W) {mo : BoeModifyOrderReq} {k : Key}
    (horig : k ≠ mo.origToken.str) (hnew : k ≠ mo.token.str) :
    (modifyStep E st mo).1.activeOrders.lookup k = st.1.activeOrders.lookup k := by
  rcases modifyStep_cases E st mo with ⟨-, hs⟩ | ⟨o, -, w, A, bo, m, -, -, hA, hs⟩
  · rw [hs]
  · rw [hs]
    show A.lookup k = _
    rw [hA, if_neg hnew, if_neg horig]

/-- It collects the token that its order carries, if enough has been executed. -/
theorem mem_done_modifyStep {st : Pass W} {mo : BoeModifyOrderReq} {k : Key}
    (hk : k ∈ (modifyStep E st mo).2) :
    k ∈ st.2 ∨ ∃ o, st.1.activeOrders.lookup mo.origToken.str = some o ∧
      (mo.qty.toNat : ℤ) ≤ o.executedQty ∧ o.token.str = k := by
  rcases modifyStep_cases E st mo with ⟨-, hs⟩ | ⟨o, ho, w, A, bo, m, -, -, -, hs⟩
  · rw [hs] at hk
    exact .inl hk
  · rw [hs] at hk
    dsimp only at hk
    split at hk
    · rename_i hle
      exact (List.mem_append.mp hk).imp_right fun hk =>
        ⟨o, ho, hle, (List.mem_singleton.mp hk).symm⟩
    · exact .inl hk

/-- A modify pass none of whose requests names `t` takes nothing to it, and leaves its order where it is
unless it collects the token. -/
theorem modifyLogic_lookup {s : BoeSession W} {t : Token}
    (hqueue : ∀ mo ∈ s.pendingModify, mo.origToken ≠ t ∧ mo.token ≠ t) :
    (modifyLogic E s).activeOrders.lookup t.str = s.activeOrders.lookup t.str ∨
      (modifyLogic E s).activeOrders.lookup t.str = none ∧
        ¬ Along (modifyStep E) (fun st mo => ∀ o ∈ st.1.activeOrders.lookup mo.origToken.str,
          (mo.qty.toNat : ℤ) ≤ o.executedQty → o.token ≠ t) (s, []) s.pendingModify := by
  have hsame := run_of_along (f := modifyStep E)
    (C := fun _ mo => mo.origToken ≠ t ∧ mo.token ≠ t)
    (I := fun st : Pass W => st.1.activeOrders.lookup t.str = s.activeOrders.lookup t.str)
    (fun st mo h hmo => (lookup_modifyStep E st (fun h => hmo.1 (TokenOf.str_inj.mp h.symm))
      fun h => hmo.2 (TokenOf.str_inj.mp h.symm)).trans h)
    (s := (s, [])) rfl (along_of_forall hqueue)
  by_cases hk : t.str ∈ (Machine.run (modifyStep E) (s, []) s.pendingModify).2
  · right
    refine ⟨lookup_finishPass_of_mem hk, fun halong => ?_⟩
    refine absurd hk (run_of_along (I := fun st : Pass W => t.str ∉ st.2)
      (fun st mo h hmo hk => ?_) List.not_mem_nil halong)
    rcases mem_done_modifyStep E hk with hk | ⟨o, ho, hle, htoken⟩
    · exact h hk
    · exact hmo o ho hle (TokenOf.str_inj.mp htoken)
  · left
    exact (lookup_finishPass_of_notMem hk).trans hsame

/-! ## The execution pass -/

/-- The order of the token within an execution pass: what remains of it and what has been reported
make up its quantity, and if it has been collected then nothing remains and it is finished. -/
structure Executing (t : Token) (x : Option (ℕ × ℕ)) (q : ℕ) (s : BoeSession W) (st : Pass W) :
    Prop where
  emits : Emits [.orderExecution] s st.1
  order : ∃ n o, accountAt t x s st.1 = some (q, n) ∧ st.1.activeOrders.lookup t.str = some o ∧
    o.token = t ∧ 0 ≤ o.remainingQty ∧ o.remainingQty + n = q ∧
    (t.str ∈ st.2 → o.remainingQty = 0 ∧ st.1.finishedOrders.lookup t.str = some o)

/-- The order itself is visited. -/
theorem Executing.visit {t : Token} {x : Option (ℕ × ℕ)} {q : ℕ} {s : BoeSession W} {st : Pass W}
    (h : Executing t x q s st) (hbound : ∀ o ∈ st.1.activeOrders.lookup t.str,
      (E.gate .execution st.1.env).1 = true → o.remainingQty ≤ 1000000) :
    Executing t x q s (executionStep E st t.str) := by
  obtain ⟨n, o, hacc, ho, htoken, hnonneg, hsum, hdone⟩ := h.order
  have hemits := h.emits.trans (emits_executionStep E st t.str)
  rcases executionStep_cases E st t.str with ⟨hnone, -⟩ | ⟨o', ho', w, ⟨-, hs⟩ | ⟨-, hactive, hs |
    ⟨exe, m, h0, hle, hm, hlast, -, hs⟩⟩ | ⟨hgate, hretired, hs⟩⟩
  · cases ho.symm.trans hnone
  · rw [hs] at hemits ⊢
    exact ⟨hemits, n, o, hacc, ho, htoken, hnonneg, hsum, hdone⟩
  · rw [hs] at hemits ⊢
    exact ⟨hemits, n, o, hacc, ho, htoken, hnonneg, hsum, hdone⟩
  · cases ho.symm.trans ho'
    have hactive' := BoeOrder.stillActive_iff.mp hactive
    have hshares : (m.lastShares.toNat : ℤ) = exe := by
      rw [hlast, toNat_ofInt h0.le]
      omega
    have hout : (executionStep E st t.str).1.pendingOutMessages =
        st.1.pendingOutMessages ++ [.orderExecution m] := by
      rw [hs]
      rfl
    refine ⟨hemits, n + m.lastShares.toNat, { o with
      remainingQty := o.remainingQty - exe
      executedQty := o.executedQty + exe }, ?_, ?_, htoken, by show 0 ≤ o.remainingQty - exe; omega,
      ?_, fun hk => ?_⟩
    · rw [accountAt_emit h.emits hout, hacc]
      show (if m.token = t then _ else _) = _
      rw [if_pos (hm.trans htoken)]
      rfl
    · rw [hs]
      exact AList.lookup_insert _
    · show o.remainingQty - exe + ((n + m.lastShares.toNat : ℕ) : ℤ) = q
      push_cast
      omega
    · -- a collected order has nothing left to fill
      rw [hs] at hk
      have hzero := (hdone hk).1
      omega
  · cases ho.symm.trans ho'
    -- an order that is not active any more has been filled, for its quantity is in bounds
    have hleft : o.remainingQty = 0 := by
      have hle := hbound o ho hgate
      by_contra hne
      have hpos : 0 < o.remainingQty := by omega
      have hstill : o.stillActive = true := BoeOrder.stillActive_iff.mpr ⟨hpos, hle⟩
      exact Bool.false_ne_true (hretired.symm.trans hstill)
    rw [hs] at hemits ⊢
    exact ⟨hemits, n, o, hacc, ho, htoken, hnonneg, hsum, fun _ => ⟨hleft, AList.lookup_insert _⟩⟩

/-- Another order is visited. -/
theorem Executing.other {t : Token} {x : Option (ℕ × ℕ)} {q : ℕ} {s : BoeSession W} {st : Pass W}
    (h : Executing t x q s st) {k : Key} (hk : k ≠ t.str)
    (hother : ∀ o ∈ st.1.activeOrders.lookup k, (E.gate .execution st.1.env).1 = true →
      o.stillActive = true → o.token ≠ t) :
    Executing t x q s (executionStep E st k) := by
  obtain ⟨n, o, hacc, ho, htoken, hnonneg, hsum, hdone⟩ := h.order
  have hemits := h.emits.trans (emits_executionStep E st k)
  rcases executionStep_cases E st k with ⟨-, hs⟩ | ⟨o', ho', w, ⟨-, hs⟩ | ⟨hgate, hactive, hs |
    ⟨exe, m, -, -, hm, -, -, hs⟩⟩ | ⟨-, -, hs⟩⟩
  · rw [hs] at hemits ⊢
    exact h
  · rw [hs] at hemits ⊢
    exact ⟨hemits, n, o, hacc, ho, htoken, hnonneg, hsum, hdone⟩
  · rw [hs] at hemits ⊢
    exact ⟨hemits, n, o, hacc, ho, htoken, hnonneg, hsum, hdone⟩
  · -- another order is filled, and the message names its token
    have hout : (executionStep E st k).1.pendingOutMessages =
        st.1.pendingOutMessages ++ [.orderExecution m] := by
      rw [hs]
      rfl
    refine ⟨hemits, n, o, ?_, ?_, htoken, hnonneg, hsum, ?_⟩
    · rw [accountAt_emit h.emits hout, hacc]
      show (if m.token = t then _ else _) = _
      rw [if_neg (hm ▸ hother o' ho' hgate hactive)]
    · rw [hs]
      show (st.1.activeOrders.insert k _).lookup t.str = some o
      rw [KeyedMap.lookup_insert, if_neg (Ne.symm hk), ho]
    · rw [hs]
      exact hdone
  · -- another order is finished
    rw [hs] at hemits ⊢
    refine ⟨hemits, n, o, hacc, ho, htoken, hnonneg, hsum, fun hmem => ?_⟩
    obtain ⟨hleft, hfin⟩ := hdone ((List.mem_append.mp hmem).resolve_right
      fun hmem => hk (List.mem_singleton.mp hmem).symm)
    refine ⟨hleft, ?_⟩
    show (st.1.finishedOrders.insert k o').lookup t.str = some o
    rw [KeyedMap.lookup_insert, if_neg (Ne.symm hk), hfin]

/-- The order of the token between events: what remains of it and what has been reported make up its
quantity. -/
def Balanced (t : Token) (x : Option (ℕ × ℕ)) (s : BoeSession W) : Prop :=
  ∀ q n, x = some (q, n) → ∃ o, s.activeOrders.lookup t.str = some o ∧ o.token = t ∧
    0 ≤ o.remainingQty ∧ o.remainingQty + n = q

/-- An execution pass keeps the account balanced, and an order whose account is full is retired. -/
theorem executionLogic_retires {t : Token} {q n : ℕ} {s : BoeSession W}
    (h : Balanced t (some (q, n)) s)
    (hcond : Along (executionStep E) (fun st k => ∀ o ∈ st.1.activeOrders.lookup k,
        (E.gate .execution st.1.env).1 = true → (k = t.str → o.remainingQty ≤ 1000000) ∧
          (k ≠ t.str → o.stillActive = true → o.token ≠ t))
      (s.inEnv (E.visit s.activeOrders.keys s.env).2, [])
      (E.visit s.activeOrders.keys s.env).1.val) :
    (t.str ∈ (executionLogic E s).activeOrders ∧
        Balanced t (accountAt t (some (q, n)) s (executionLogic E s)) (executionLogic E s)) ∨
      t.str ∉ (executionLogic E s).activeOrders ∧
        accountAt t (some (q, n)) s (executionLogic E s) = some (q, q) ∧
        ∃ o, (executionLogic E s).finishedOrders.lookup t.str = some o ∧ o.remainingQty = 0 := by
  obtain ⟨o, ho, htoken, hnonneg, hsum⟩ := h q n rfl
  have hrun := run_of_along (I := Executing t (some (q, n)) q s)
    (fun st k hst hk => by
      by_cases hkt : k = t.str
      · subst hkt
        exact hst.visit E fun o ho hgate => (hk o ho hgate).1 rfl
      · exact hst.other E hkt fun o ho hgate => (hk o ho hgate).2 hkt)
    (s := (s.inEnv (E.visit s.activeOrders.keys s.env).2, []))
    ⟨emits_of_out rfl, n, o, accountAt_self t _ s, ho, htoken, hnonneg, hsum,
      fun hk => absurd hk List.not_mem_nil⟩ hcond
  obtain ⟨-, n', o', hacc, ho', htoken', hnonneg', hsum', hdone⟩ := hrun
  have hacc' : accountAt t (some (q, n)) s (executionLogic E s) = some (q, n') := hacc
  by_cases hk : t.str ∈ (Machine.run (executionStep E)
      (s.inEnv (E.visit s.activeOrders.keys s.env).2, [])
      (E.visit s.activeOrders.keys s.env).1.val).2
  · right
    obtain ⟨hleft, hfin⟩ := hdone hk
    refine ⟨KeyedMap.lookup_eq_none.mp (lookup_finishPass_of_mem hk), ?_, o', hfin, hleft⟩
    rw [hacc', show n' = q by omega]
  · left
    have hlook : (executionLogic E s).activeOrders.lookup t.str = some o' :=
      (lookup_finishPass_of_notMem hk).trans ho'
    refine ⟨KeyedMap.mem_of_lookup hlook, fun q' n'' hx => ?_⟩
    cases hacc'.symm.trans hx
    exact ⟨o', hlook, htoken', hnonneg', hsum'⟩

/-! ## Events -/

/-- The account is that of the active order, and no pending modification names the token. -/
structure Tracked (t : Token) (a : Retirement W) : Prop where
  balanced : Balanced t a.live a.boe
  queue : ∀ mo ∈ a.boe.pendingModify, mo.origToken ≠ t ∧ mo.token ≠ t

/-- A new session has no order on account. -/
theorem tracked_init (t : Token) (w : W) : Tracked t (init E w) :=
  ⟨fun _ _ h => (nomatch h), List.forall_mem_nil _⟩

/-- While the order is in the book its account goes on. -/
theorem live_of_mem {t : Token} {a : Retirement W} {e : Event}
    (h : t.str ∈ (BoeSession.step E a.boe e).activeOrders) :
    (step E t a e).live = accountAt t a.live a.boe (BoeSession.step E a.boe e) :=
  if_pos h

/-- An order that has left the book has no account. -/
theorem live_of_notMem {t : Token} {a : Retirement W} {e : Event}
    (h : t.str ∉ (BoeSession.step E a.boe e).activeOrders) : (step E t a e).live = none :=
  if_neg h

/-- An event that leaves the account alone, and the order if it is active. -/
theorem tracked_of_kept {t : Token} {a : Retirement W} (h : Tracked t a) {e : Event}
    (hacc : accountAt t a.live a.boe (BoeSession.step E a.boe e) = a.live)
    (hlook : t.str ∈ a.boe.activeOrders → (BoeSession.step E a.boe e).activeOrders.lookup t.str =
      a.boe.activeOrders.lookup t.str)
    (hqueue : ∀ mo ∈ (BoeSession.step E a.boe e).pendingModify,
      mo.origToken ≠ t ∧ mo.token ≠ t) :
    LeavesWell E t a e ∧ Tracked t (step E t a e) := by
  have hkept : ∀ q n, a.live = some (q, n) → ∃ o,
      (BoeSession.step E a.boe e).activeOrders.lookup t.str = some o ∧ o.token = t ∧
        0 ≤ o.remainingQty ∧ o.remainingQty + n = q := by
    intro q n hlive
    obtain ⟨o, ho, hrest⟩ := h.balanced q n hlive
    exact ⟨o, (hlook (KeyedMap.mem_of_lookup ho)).trans ho, hrest⟩
  refine ⟨fun q n hx hgone => ?_, fun q n hx => ?_, hqueue⟩
  · obtain ⟨o, ho, -⟩ := hkept q n (hacc.symm.trans hx)
    exact absurd (KeyedMap.mem_of_lookup ho) hgone
  · by_cases hact : t.str ∈ (BoeSession.step E a.boe e).activeOrders
    · rw [live_of_mem E hact, hacc] at hx
      exact hkept q n hx
    · cases (live_of_notMem E hact).symm.trans hx

/-- Steps that concern no order leave the account alone. -/
theorem account_of_idle {t : Token} {x : Option (ℕ × ℕ)} {s s' : BoeSession W} (h : Idle s s') :
    accountAt t x s s' = x := by
  obtain ⟨ms, hout, hms⟩ := h.out
  unfold accountAt
  rw [hout, added_append]
  apply foldl_account
  intro m hm
  have hquiet := hms m hm
  cases m <;> first | rfl | cases hquiet

/-- A packet takes no order out of the book. -/
theorem tracked_packet {t : Token} {a : Retirement W} (h : Tracked t a) {p : Mem}
    (hp : spares t (.packet p) = true) :
    LeavesWell E t a (.packet p) ∧ Tracked t (step E t a (.packet p)) := by
  rcases step_packet E a.boe p with ⟨-, hs⟩ | ⟨r, hr, hs⟩
  · exact tracked_of_kept E h (by rw [hs, accountAt_self]) (fun _ => by rw [hs]) (by
      rw [hs]
      exact h.queue)
  have hnames : r.names t = false := by
    have hall : (request p).all (fun r => !r.names t) = true := hp
    rw [hr] at hall
    simpa using hall
  rcases handle_cases E a.boe r with ⟨hidle, -⟩ | ⟨no, w, d, m, -, hacc, hm, hqty, -, hh⟩ |
    ⟨mo, w, rfl, -, -, hh⟩ | ⟨co, o, rfl, -, -, hh⟩ | ⟨co, rfl, -, hidle⟩
  · -- nothing comes of the request
    rw [← hs] at hidle
    refine tracked_of_kept E h (account_of_idle hidle) (fun _ => by rw [hidle.activeOrders]) ?_
    rw [hidle.pendingModify]
    exact h.queue
  · rw [← hs] at hh
    have hout : (BoeSession.step E a.boe (.packet p)).pendingOutMessages =
        a.boe.pendingOutMessages ++ [.orderAck m] := by
      rw [hh]
      rfl
    have haccount : accountAt t a.live a.boe (BoeSession.step E a.boe (.packet p)) =
        if m.token = t then some (m.leavesQty.toNat, 0) else a.live := by
      unfold accountAt
      rw [hout, added_append]
      rfl
    by_cases hown : no.token = t
    · -- the order of the token itself
      rw [if_pos (hm.trans hown), hqty] at haccount
      have hlook : (BoeSession.step E a.boe (.packet p)).activeOrders.lookup t.str =
          some (BoeOrder.parseOrder d no) := by
        rw [hh, ← hown]
        exact AList.lookup_insert _
      refine ⟨fun q n _ hgone => absurd (KeyedMap.mem_of_lookup hlook) hgone, fun q n hx => ?_, ?_⟩
      · rw [live_of_mem E (KeyedMap.mem_of_lookup hlook), haccount] at hx
        cases hx
        exact ⟨_, hlook, hown, Int.natCast_nonneg _, add_zero _⟩
      · show ∀ mo ∈ (BoeSession.step E a.boe (.packet p)).pendingModify, _
        rw [hh]
        exact h.queue
    · -- an order of another token
      rw [if_neg fun hmt => hown (hm.symm.trans hmt)] at haccount
      refine tracked_of_kept E h haccount (fun _ => ?_) ?_
      · rw [hh]
        show (a.boe.activeOrders.insert no.token.str _).lookup t.str = _
        rw [KeyedMap.lookup_insert, if_neg fun hk => hown (TokenOf.str_inj.mp hk).symm]
      · rw [hh]
        exact h.queue
  · rw [← hs] at hh
    refine tracked_of_kept E h ?_ (fun _ => by rw [hh]; rfl) ?_
    · rw [hh]
      exact accountAt_self t a.live a.boe
    · rw [hh]
      intro mo' hmo'
      rcases List.mem_append.mp hmo' with hold | hnew
      · exact h.queue mo' hold
      · have hother : mo.origToken ≠ t ∧ mo.token ≠ t := by simpa [Request.names] using hnames
        rw [List.mem_singleton.mp hnew]
        exact hother
  · rw [← hs] at hh
    refine tracked_of_kept E h ?_ (fun _ => by rw [hh]) ?_
    · rw [hh]
      exact accountAt_self t a.live a.boe
    · rw [hh]
      exact h.queue
  · -- a cancel that is rejected on receipt, behind the subscript
    rw [← hs] at hidle
    have haccount := account_of_idle (t := t) (x := a.live) hidle
    refine tracked_of_kept E h haccount (fun hact => ?_) ?_
    · rw [hidle.activeOrders]
      by_cases hk : co.origToken.str = t.str
      · rw [withActive_activeOrders, hk, KeyedMap.touch_of_mem _ hact]
      · exact KeyedMap.lookup_touch _ _ (.inr (Ne.symm hk))
    · rw [hidle.pendingModify]
      exact h.queue

/-- In an ordinary tick the order leaves well if it leaves. -/
theorem tracked_marketLogic {t : Token} {a : Retirement W} (h : Tracked t a)
    (hcond : Ordinary E t a .marketLogic) :
    LeavesWell E t a .marketLogic ∧ Tracked t (step E t a .marketLogic) := by
  have hqueue : ∀ mo ∈ (marketLogic E a.boe).pendingModify, mo.origToken ≠ t ∧ mo.token ≠ t := by
    rw [(marketLogic_queues E a.boe).2]
    exact h.queue
  rcases hlive : a.live with _ | ⟨q, n⟩
  · -- a tick acknowledges nothing
    have hnone : accountAt t none a.boe (marketLogic E a.boe) = none := by
      obtain ⟨ms, hout, hms⟩ := emits_marketLogic E a.boe
      unfold accountAt
      rw [hout, added_append]
      apply foldl_account
      intro m hm
      have htype := hms m hm
      cases m with
      | orderAck _ => simp [OutMsg.type] at htype
      | orderExecution m => exact ite_self none
      | _ => rfl
    refine ⟨fun q n hx => ?_, fun q n hx => ?_, hqueue⟩
    · rw [hlive] at hx
      cases hnone.symm.trans hx
    · by_cases hact : t.str ∈ (BoeSession.step E a.boe .marketLogic).activeOrders
      · rw [live_of_mem E hact, hlive] at hx
        cases hnone.symm.trans hx
      · cases (live_of_notMem E hact).symm.trans hx
  obtain ⟨hmods, hexes⟩ := hcond (by rw [hlive]; exact Option.some_ne_none _)
  have hbalanced : Balanced t (some (q, n)) a.boe := hlive ▸ h.balanced
  have hbeat := idle_heartbeatLogic E a.boe
  -- up to the execution pass the account stays as it is
  have hbefore := emits_beforeExecution E a.boe
  generalize hs : modifyLogic E (modifyStart E a.boe).1 = s at hbefore hexes
  have htick : marketLogic E a.boe = executionLogic E s := by
    rw [← hs]
    rfl
  have haccount : accountAt t (some (q, n)) a.boe (marketLogic E a.boe) =
      accountAt t (some (q, n)) s (executionLogic E s) := by
    rw [htick, accountAt_trans hbefore (emits_executionLogic E s),
      accountAt_of_emits hbefore (by decide) (by decide)]
  have hmodify := modifyLogic_lookup E (s := (modifyStart E a.boe).1) (t := t) (by
    rw [pendingModify_modifyStart]
    exact h.queue)
  rw [hs] at hmodify
  rcases cancelLogic_reports E (heartbeatLogic E a.boe) t with hkept | ⟨hgone, m, hm, hmt⟩
  · -- the order meets the execution pass
    have hlook : s.activeOrders.lookup t.str = a.boe.activeOrders.lookup t.str := by
      rcases hmodify with hmodify | ⟨-, hcollected⟩
      · rw [hmodify, ← hbeat.activeOrders]
        exact hkept
      · exact absurd hmods hcollected
    have hbalanced' : Balanced t (some (q, n)) s := by
      intro q' n' hx
      rw [hlook]
      exact hbalanced q' n' hx
    rcases executionLogic_retires E hbalanced' hexes with ⟨hact, hbal⟩ | ⟨hretired, hsold, o, ho⟩
    · rw [← haccount, ← htick] at hbal
      rw [← htick] at hact
      refine ⟨fun _ _ _ hgone => absurd hact hgone, fun q' n' hx => ?_, hqueue⟩
      rw [live_of_mem E hact, hlive] at hx
      exact hbal q' n' hx
    · rw [← haccount] at hsold
      rw [← htick] at hretired ho
      refine ⟨fun q' n' hx _ => .inr ?_, fun q' n' hx => ?_, hqueue⟩
      · rw [hlive] at hx
        cases hsold.symm.trans hx
        exact ⟨rfl, o, ho⟩
      · cases (live_of_notMem E hretired).symm.trans hx
  · -- the order has been cancelled
    have hgone' : s.activeOrders.lookup t.str = none := by
      rcases hmodify with hmodify | ⟨hnone, -⟩
      · exact hmodify.trans hgone
      · exact hnone
    have hretired : t.str ∉ (marketLogic E a.boe).activeOrders := by
      rw [htick]
      exact executionLogic_absent E (KeyedMap.lookup_eq_none.mp hgone')
    have hafter : Log.Appends (fun _ => True)
        (cancelLogic E (heartbeatLogic E a.boe)).pendingOutMessages
        (marketLogic E a.boe).pendingOutMessages := by
      rw [htick, ← hs]
      exact ((emits_modifyLogic E _).imp fun _ _ => trivial).trans
        ((emits_executionLogic E _).imp fun _ _ => trivial)
    refine ⟨fun _ _ _ _ => .inl ⟨m, ?_, hmt⟩, fun q' n' hx => ?_, hqueue⟩
    · exact added_subset (emits_heartbeatLogic E a.boe) (emits_cancelLogic E _) hafter hm
    · cases (live_of_notMem E hretired).symm.trans hx

/-- In an ordinary event the order leaves well if it leaves. -/
theorem tracked_step {t : Token} {a : Retirement W} (h : Tracked t a) {e : Event}
    (he : spares t e = true) (hcond : Ordinary E t a e) :
    LeavesWell E t a e ∧ Tracked t (step E t a e) := by
  cases e with
  | packet p => exact tracked_packet E h he
  | marketLogic => exact tracked_marketLogic E h hcond
  | cancelAll => exact absurd he Bool.false_ne_true
  | disconnect =>
    exact tracked_of_kept E h (accountAt_self t a.live a.boe) (fun _ => rfl) h.queue

/-- **How an order leaves.** In a run without `cancel_all` in which no modification names the token, every
order of the token leaves the active orders with its cancellation sent in the same event, or with nothing
left and all of its acknowledged quantity reported executed, as long as no tick looks at it while more
than 1000000 shares of it remain and no other order carries its token when it is filled or retired. -/
theorem leavesWell_run (w : W) (t : Token) (es : List Event) (hes : ∀ e ∈ es, spares t e = true)
    (hcond : Along (step E t) (Ordinary E t) (init E w) es) :
    Along (step E t) (LeavesWell E t) (init E w) es := by
  have hspares : Along (step E t) (fun _ e => spares t e = true) (init E w) es :=
    along_of_forall hes
  exact (hspares.and hcond).of_invariant (I := Tracked t)
    (fun a e h he => (tracked_step E h he.1 he.2).2)
    (fun a e h he => (tracked_step E h he.1 he.2).1) (tracked_init E t w)

/-- An order that is filled by one tick and retired by the next. -/
theorem leavesWell_filled :
    Along (step quietEnv (tokenOf 'a')) (LeavesWell quietEnv (tokenOf 'a')) (init quietEnv ())
      [newPacket 'a' [100, 0, 0, 0], .marketLogic, .marketLogic] :=
  leavesWell_run quietEnv () _ _ (by decide +kernel) (by decide +kernel)

/-- 1000001 shares: the first tick retires the order without a word. -/
theorem not_leavesWell :
    ¬ ∀ (W : Type) (E : Env W) (w : W) (t : Token) (es : List Event),
      (∀ e ∈ es, spares t e = true) → Along (step E t) (LeavesWell E t) (init E w) es := by
  intro h
  have hrun := h Unit quietEnv () (tokenOf 'a')
    [newPacket 'a' [0x41, 0x42, 0x0f, 0], .marketLogic] (by decide +kernel)
  have hgone : (tokenOf 'a').str ∉ (BoeSession.step quietEnv (BoeSession.step quietEnv
      (BoeSession.init quietEnv ()) (newPacket 'a' [0x41, 0x42, 0x0f, 0])) .marketLogic).activeOrders := by
    decide +kernel
  rcases hrun.2.1 1000001 0 (by decide +kernel) hgone with ⟨m, hm, -⟩ | ⟨hsold, -⟩
  · have hnone : added (BoeSession.step quietEnv (BoeSession.init quietEnv ())
        (newPacket 'a' [0x41, 0x42, 0x0f, 0])).pendingOutMessages
        (BoeSession.step quietEnv (BoeSession.step quietEnv (BoeSession.init quietEnv ())
          (newPacket 'a' [0x41, 0x42, 0x0f, 0])) .marketLogic).pendingOutMessages = [] := by
      rw [← List.length_eq_zero_iff]
      decide +kernel
    exact absurd (hnone ▸ hm) List.not_mem_nil
  · cases hsold

end Retirement

end BoeSession

end Evtsim
