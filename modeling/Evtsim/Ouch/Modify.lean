import Evtsim.Ouch.Tokens

/-!
# Modification in an `ouch_session` over several ticks

`modify_logic` never empties `pending_modify`, so a request is met again on every later tick. A request
is named by its place in the queue, which only grows; an audit of the run notes for every tick on whose
account an `OrderModified` is emitted. `audits_run` says that no request is answered twice, and that a
tick without a new request modifies nothing, exactly when no tick meets a request it would apply that
has been applied before, or that has been waiting since an earlier tick with nothing new behind it.
-/

namespace Evtsim

open Wire Ouch Session

namespace OuchSession

variable {W : Type} (E : Env W)

/-! ## The audit of a run -/

def isModified : Ouch.OutMsg → Bool
  | .orderModified _ => true
  | _ => false

/-- How many `OrderModified` messages there are. -/
def modifications (msgs : List Ouch.OutMsg) : ℕ := msgs.countP isModified

/-- The requests on whose account `OrderModified` messages are emitted, once for each message. The
first request has place `i`. -/
def accountsFrom (i : ℕ) (st : Pass W) : List OuchModifyOrderReq → List ℕ
  | [] => []
  | mo :: mos =>
    List.replicate (modifications (modifyStep E st mo).1.pendingOutMessages -
        modifications st.1.pendingOutMessages) i ++
      accountsFrom (i + 1) (modifyStep E st mo) mos

instance decidableApplies (st : Pass W) (mo : OuchModifyOrderReq) : Decidable (Applies st mo) :=
  match h : st.1.activeOrders.lookup mo.token.str with
  | none => isFalse fun ⟨_, ho, _⟩ => nomatch h.symm.trans ho
  | some o =>
    if hpass : passesSideSwitch o.side mo.newSide = true then isTrue ⟨o, h, hpass⟩
    else isFalse fun ⟨_, ho, hp⟩ => hpass (Option.some.inj (h.symm.trans ho) ▸ hp)

/-- The requests that are not skipped at their turn. -/
def appliedFrom (i : ℕ) (st : Pass W) : List OuchModifyOrderReq → List ℕ
  | [] => []
  | mo :: mos =>
    (if Applies st mo then [i] else []) ++ appliedFrom (i + 1) (modifyStep E st mo) mos

/-- The session that `modify_logic` finds on a tick. -/
def beforeModify (s : OuchSession W) : OuchSession W := cancelLogic E (heartbeatLogic E s)

/-- The accounts of a tick. -/
def accounts (s : OuchSession W) : List ℕ :=
  accountsFrom E 0 (beforeModify E s, []) (beforeModify E s).pendingModify

/-- The requests that a tick applies. -/
def applied (s : OuchSession W) : List ℕ :=
  appliedFrom E 0 (beforeModify E s, []) (beforeModify E s).pendingModify

/-- A session with what has happened on its ticks. -/
structure Audit (W : Type) where
  session : OuchSession W
  /-- The requests accounted for, once for each message. -/
  accounts : List ℕ
  /-- The requests applied. -/
  applied : List ℕ
  /-- How many requests the last tick met. -/
  seen : ℕ

/-- The audit of a new session. -/
def Audit.init (w : W) : Audit W :=
  { session := OuchSession.init E w, accounts := [], applied := [], seen := 0 }

/-- One event. -/
def Audit.step (a : Audit W) : Event → Audit W
  | .marketLogic =>
    { session := OuchSession.step E a.session .marketLogic
      accounts := a.accounts ++ OuchSession.accounts E a.session
      applied := a.applied ++ OuchSession.applied E a.session
      seen := a.session.pendingModify.length }
  | e => { a with session := OuchSession.step E a.session e }

/-- The audit follows the run. -/
theorem audit_session (w : W) (es : List Event) :
    (Machine.run (Audit.step E) (.init E w) es).session = run E w es := by
  refine Machine.run_view (g := Audit.session) (fun a e => ?_) (.init E w) es
  cases e <;> rfl

/-- Every `OrderModified` is on account of a request, and no two are on account of the same. -/
def OnceEach (a : Audit W) : Prop :=
  a.accounts.length = modifications a.session.pendingOutMessages ∧ a.accounts.Nodup

/-- On a tick a request that is not accounted for changes nothing at its turn, and with no new request
since the last tick there is no `OrderModified` and `modify_logic` changes nothing. -/
def TickOnce (a : Audit W) : Event → Prop
  | .marketLogic =>
    (∀ pre mo post, (beforeModify E a.session).pendingModify = pre ++ mo :: post →
      pre.length ∉ accounts E a.session →
      modifyStep E (Machine.run (modifyStep E) (beforeModify E a.session, []) pre) mo =
        Machine.run (modifyStep E) (beforeModify E a.session, []) pre) ∧
    (a.session.pendingModify.length = a.seen →
      modifications (marketLogic E a.session).pendingOutMessages =
          modifications a.session.pendingOutMessages ∧
        modifyLogic E (beforeModify E a.session) = beforeModify E a.session)
  | _ => True

/-- A request that is not skipped at its turn on a tick was skipped on every tick before, and there
are requests that no tick has met. -/
def NoneLeftOver (a : Audit W) : Event → Prop
  | .marketLogic =>
    ∀ i ∈ applied E a.session, i ∉ a.applied ∧ a.seen < a.session.pendingModify.length
  | _ => True

/-! ## What emits an `OrderModified` -/

/-- A message sent counts if it reports a modification. -/
@[simp] theorem modifications_concat (msgs : List Ouch.OutMsg) (m : Ouch.OutMsg) :
    modifications (msgs ++ [m]) = modifications msgs + if isModified m then 1 else 0 := by
  rw [modifications, List.countP_append, List.countP_singleton]
  rfl

/-- Steps that concern no order report no modification. -/
theorem modifications_of_idle {s s' : OuchSession W} (h : Idle s s') :
    modifications s'.pendingOutMessages = modifications s.pendingOutMessages := by
  obtain ⟨ms, hout, hms⟩ := h.out
  have hnone : ms.countP isModified = 0 := by
    rw [List.countP_eq_zero]
    intro m hm hmod
    have hrep := hms m hm
    cases m <;> first | exact absurd hmod Bool.false_ne_true | exact absurd hrep.symm Bool.false_ne_true
  rw [hout, modifications, List.countP_append, hnone]
  rfl

/-- A cancel pass reports no modification. -/
theorem modifications_cancelLogic (s : OuchSession W) :
    modifications (cancelLogic E s).pendingOutMessages = modifications s.pendingOutMessages := by
  refine Machine.run_invariant (f := cancelStep E) (s := (s, []))
    (I := fun st : Pass W => modifications st.1.pendingOutMessages =
      modifications s.pendingOutMessages) ?_ rfl s.pendingCancel
  intro st co h
  rcases cancelStep_cases E st co with ⟨-, w, m, hs⟩ | ⟨o, -, -, ⟨-, w, m, -, -, hs⟩ |
    ⟨-, -, w, hs⟩ | ⟨-, -, w, m, -, -, hs⟩⟩ <;> rw [hs]
  · exact (modifications_concat _ _).trans h
  · exact (modifications_concat _ _).trans h
  · exact h
  · exact (modifications_concat _ _).trans h

/-- A replace pass reports no modification. -/
theorem modifications_replaceLogic (s : OuchSession W) :
    modifications (replaceLogic E s).pendingOutMessages = modifications s.pendingOutMessages := by
  refine Machine.run_invariant (f := replaceStep E) (s := (s, []))
    (I := fun st : Pass W => modifications st.1.pendingOutMessages =
      modifications s.pendingOutMessages) ?_ rfl s.pendingReplace
  intro st ro h
  rcases replaceStep_cases E st ro with ⟨-, w, m, -, -, hs⟩ | ⟨-, w, m, A, -, -, -, hs⟩ <;> rw [hs]
  · exact (modifications_concat _ _).trans h
  · exact (modifications_concat _ _).trans h

/-- An execution pass reports no modification. -/
theorem modifications_executionLogic (s : OuchSession W) :
    modifications (executionLogic E s).pendingOutMessages = modifications s.pendingOutMessages := by
  refine Machine.run_invariant (f := executionStep E)
    (s := ({ s with env := (E.visit s.activeOrders.keys s.env).2 }, []))
    (I := fun st : Pass W => modifications st.1.pendingOutMessages =
      modifications s.pendingOutMessages) ?_ rfl _
  intro st k h
  rcases executionStep_cases E st k with ⟨-, hs⟩ | ⟨o, -, ⟨-, w, hs⟩ | ⟨o', w, -, ⟨m, -, -, hs⟩ |
    ⟨-, hs⟩ | ⟨exe, m, -, -, -, -, hs⟩ | hs | hs⟩⟩ <;> rw [hs]
  · exact h
  · exact h
  · exact (modifications_concat _ _).trans h
  · exact h
  · exact (modifications_concat _ _).trans h
  · exact h
  · exact h

/-- `cancel_all` reports no modification. -/
theorem modifications_cancelAll (s : OuchSession W) :
    modifications (cancelAll E s).1.pendingOutMessages = modifications s.pendingOutMessages := by
  refine Machine.run_invariant (f := cancelAllStep E)
    (s := ({ s with env := (E.visit s.activeOrders.keys s.env).2 }, 0))
    (I := fun st : OuchSession W × ℕ => modifications st.1.pendingOutMessages =
      modifications s.pendingOutMessages) ?_ rfl _
  intro st k h
  rcases cancelAllStep_cases E st k with ⟨-, hs⟩ | ⟨o, o', w, -, -, ⟨m, -, -, hs⟩ | hs⟩ <;> rw [hs]
  · exact h
  · exact (modifications_concat _ _).trans h
  · exact h

/-- A request that is not skipped emits one `OrderModified`, a skipped one changes nothing. -/
theorem modifications_modifyStep (st : Pass W) (mo : OuchModifyOrderReq) :
    (Applies st mo ∧ modifications (modifyStep E st mo).1.pendingOutMessages =
        modifications st.1.pendingOutMessages + 1) ∨
      (¬ Applies st mo ∧ modifyStep E st mo = st) := by
  rcases modifyStep_cases E st mo with hskip | ⟨o, ho, hpass, ⟨-, w, m, -, hs⟩ | ⟨-, w, m, -, hs⟩⟩
  · exact .inr hskip
  · rw [hs]
    exact .inl ⟨⟨o, ho, hpass⟩, modifications_concat _ _⟩
  · rw [hs]
    exact .inl ⟨⟨o, ho, hpass⟩, modifications_concat _ _⟩

/-! ## The accounts of a pass -/

/-- On account of a request that is not skipped there is one message, on account of any other none. -/
theorem accountsFrom_eq (i : ℕ) (st : Pass W) (mos : List OuchModifyOrderReq) :
    accountsFrom E i st mos = appliedFrom E i st mos := by
  induction mos generalizing i st with
  | nil => rfl
  | cons mo mos ih =>
    rw [accountsFrom, appliedFrom, ih]
    congr 1
    rcases modifications_modifyStep E st mo with ⟨happly, hone⟩ | ⟨hskip, hsame⟩
    · rw [hone, Nat.add_sub_cancel_left, if_pos happly]
      rfl
    · rw [hsame, Nat.sub_self, if_neg hskip]
      rfl

/-- A place of the queue is applied if its request applies after those before it. -/
theorem mem_appliedFrom {i j : ℕ} {st : Pass W} {mos : List OuchModifyOrderReq} :
    j ∈ appliedFrom E i st mos ↔ ∃ pre mo post, mos = pre ++ mo :: post ∧ j = i + pre.length ∧
      Applies (Machine.run (modifyStep E) st pre) mo := by
  induction mos generalizing i st with
  | nil => simp [appliedFrom]
  | cons mo mos ih =>
    rw [appliedFrom, List.mem_append, ih]
    constructor
    · rintro (hhead | ⟨pre, mo', post, rfl, rfl, happly⟩)
      · split at hhead
        · rename_i happly
          exact ⟨[], mo, mos, rfl, List.mem_singleton.mp hhead, happly⟩
        · cases hhead
      · exact ⟨mo :: pre, mo', post, rfl, by rw [List.length_cons]; omega, happly⟩
    · rintro ⟨pre, mo', post, hsplit, rfl, happly⟩
      cases pre with
      | nil =>
        obtain ⟨rfl, rfl⟩ := List.cons.inj hsplit
        left
        rw [if_pos (show Applies st mo from happly)]
        exact List.mem_cons_self
      | cons mo'' pre =>
        obtain ⟨rfl, rfl⟩ := List.cons.inj hsplit
        exact .inr ⟨pre, mo', post, rfl, by rw [List.length_cons]; omega, happly⟩

/-- No place of the queue is applied twice in a pass. -/
theorem appliedFrom_nodup (i : ℕ) (st : Pass W) (mos : List OuchModifyOrderReq) :
    (appliedFrom E i st mos).Nodup := by
  induction mos generalizing i st with
  | nil => exact List.nodup_nil
  | cons mo mos ih =>
    rw [appliedFrom, List.nodup_append]
    refine ⟨?_, ih _ _, ?_⟩
    · split
      · exact List.nodup_singleton i
      · exact List.nodup_nil
    · intro j hj j' hj' heq
      obtain ⟨pre, mo', post, -, rfl, -⟩ := (mem_appliedFrom E).mp hj'
      split at hj
      · have := List.mem_singleton.mp hj
        omega
      · cases hj

/-- The messages of a pass over the queue are those it accounts for. -/
theorem modifications_pass (i : ℕ) (st : Pass W) (mos : List OuchModifyOrderReq) :
    modifications (Machine.run (modifyStep E) st mos).1.pendingOutMessages =
      modifications st.1.pendingOutMessages + (appliedFrom E i st mos).length := by
  induction mos generalizing i st with
  | nil => rfl
  | cons mo mos ih =>
    rw [Machine.run_cons, ih (i + 1), appliedFrom, List.length_append]
    rcases modifications_modifyStep E st mo with ⟨happly, hone⟩ | ⟨hskip, hsame⟩
    · rw [hone, if_pos happly, List.length_singleton]
      omega
    · rw [hsame, if_neg hskip, List.length_nil]
      omega

/-- A pass that applies nothing changes nothing. -/
theorem run_of_appliedFrom_nil {i : ℕ} {st : Pass W} {mos : List OuchModifyOrderReq}
    (h : appliedFrom E i st mos = []) : Machine.run (modifyStep E) st mos = st := by
  induction mos generalizing i st with
  | nil => rfl
  | cons mo mos ih =>
    obtain ⟨hhead, htail⟩ := List.append_eq_nil_iff.mp h
    rcases modifications_modifyStep E st mo with ⟨happly, -⟩ | ⟨-, hsame⟩
    · rw [if_pos happly] at hhead
      cases hhead
    · rw [Machine.run_cons, hsame]
      rw [hsame] at htail
      exact ih htail

/-- A tick reports one modification for each that it applies. -/
theorem modifications_marketLogic (s : OuchSession W) :
    modifications (marketLogic E s).pendingOutMessages =
      modifications s.pendingOutMessages + (applied E s).length := by
  have hbefore : modifications (beforeModify E s).pendingOutMessages =
      modifications s.pendingOutMessages :=
    (modifications_cancelLogic E _).trans (modifications_of_idle (idle_heartbeatLogic E s))
  unfold marketLogic
  rw [modifications_executionLogic, modifications_replaceLogic, ← hbefore]
  exact modifications_pass E 0 (beforeModify E s, []) _

/-! ## Runs -/

/-- Outside the ticks no `OrderModified` is emitted and the queue only grows. -/
theorem audit_packet (s : OuchSession W) {e : Event} (he : e ≠ .marketLogic) :
    modifications (step E s e).pendingOutMessages = modifications s.pendingOutMessages ∧
      s.pendingModify <+: (step E s e).pendingModify := by
  cases e with
  | setLogger => exact ⟨rfl, List.prefix_refl _⟩
  | marketLogic => exact absurd rfl he
  | cancelAll =>
    refine ⟨modifications_cancelAll E s, ?_⟩
    show s.pendingModify <+: (cancelAll E s).1.pendingModify
    rw [(cancelAll_frame E s).1.pendingModify]
  | disconnect => exact ⟨rfl, List.prefix_refl _⟩
  | packet p =>
    rcases step_packet E s p with ⟨-, hs⟩ | ⟨r, -, -, hs⟩
    · rw [hs]
      exact ⟨rfl, List.prefix_refl _⟩
    rw [hs]
    rcases handle_cases E s r with ⟨hidle, -⟩ | ⟨eo, w, d, m, -, -, -, -, hs⟩ | ⟨mo, w, -, -, -, hs⟩ |
      ⟨ro, w, -, -, hs⟩ | ⟨co, w, -, -, -, hs⟩
    · rw [hidle.pendingModify]
      exact ⟨modifications_of_idle hidle, List.prefix_refl _⟩
    · rw [hs]
      exact ⟨modifications_concat _ _, List.prefix_refl _⟩
    · rw [hs]
      exact ⟨rfl, List.prefix_append _ _⟩
    · rw [hs]
      exact ⟨rfl, List.prefix_refl _⟩
    · rw [hs]
      exact ⟨rfl, List.prefix_refl _⟩

/-- The audit is complete: its two lists agree and account for every `OrderModified`. -/
structure Audited (a : Audit W) : Prop where
  applied : a.accounts = a.applied
  length : a.accounts.length = modifications a.session.pendingOutMessages
  seen : a.seen ≤ a.session.pendingModify.length

/-- Every event keeps the audit in step with the session. -/
theorem audited_step {a : Audit W} (h : Audited a) (e : Event) : Audited (a.step E e) := by
  by_cases he : e = .marketLogic
  · subst he
    have heq : accounts E a.session = applied E a.session := accountsFrom_eq E 0 _ _
    refine ⟨?_, ?_, ?_⟩
    · show a.accounts ++ accounts E a.session = a.applied ++ applied E a.session
      rw [h.applied, heq]
    · show (a.accounts ++ accounts E a.session).length =
        modifications (marketLogic E a.session).pendingOutMessages
      rw [List.length_append, heq, modifications_marketLogic, h.length]
    · show a.session.pendingModify.length ≤ (marketLogic E a.session).pendingModify.length
      rw [(marketLogic_queues E a.session).2.1]
  · obtain ⟨hmod, hgrow⟩ := audit_packet E a.session he
    have hstep : a.step E e = { a with session := step E a.session e } := by
      cases e <;> first | rfl | exact absurd rfl he
    rw [hstep]
    exact ⟨h.applied, h.length.trans hmod.symm, h.seen.trans hgrow.length_le⟩

/-- A tick that applies something has a request that no tick has met. -/
def HasNew (a : Audit W) : Event → Prop
  | .marketLogic => applied E a.session ≠ [] → a.seen < a.session.pendingModify.length
  | _ => True

/-- A tick applies no request again. -/
def NoneAgain (a : Audit W) : Event → Prop
  | .marketLogic => ∀ i ∈ applied E a.session, i ∉ a.applied
  | _ => True

/-- The two conditions on a tick are one on every request that it applies. -/
theorem noneLeftOver_iff {a : Audit W} {e : Event} :
    NoneAgain E a e ∧ HasNew E a e ↔ NoneLeftOver E a e := by
  cases e with
  | marketLogic =>
    constructor
    · rintro ⟨hagain, hnew⟩ i hi
      exact ⟨hagain i hi, hnew (List.ne_nil_of_mem hi)⟩
    · intro h
      refine ⟨fun i hi => (h i hi).1, fun hsome => ?_⟩
      obtain ⟨i, hi⟩ := List.exists_mem_of_ne_nil _ hsome
      exact (h i hi).2
  | _ => exact iff_of_true ⟨trivial, trivial⟩ trivial

/-- A tick is quiet without a new request exactly if it applies nothing then. -/
theorem tickOnce_iff {a : Audit W} (h : Audited a) :
    TickOnce E a .marketLogic ↔ HasNew E a .marketLogic := by
  constructor
  · rintro ⟨-, hquiet⟩ hsome
    refine lt_of_le_of_ne h.seen fun heq => hsome ?_
    have hcount := (hquiet heq.symm).1
    rw [modifications_marketLogic] at hcount
    exact List.eq_nil_of_length_eq_zero (by omega)
  · intro hnew
    refine ⟨?_, ?_⟩
    · intro pre mo post hsplit hnot
      rcases modifications_modifyStep E
        (Machine.run (modifyStep E) (beforeModify E a.session, []) pre) mo with ⟨happly, -⟩ | ⟨-, hsame⟩
      · exfalso
        apply hnot
        rw [accounts, accountsFrom_eq, mem_appliedFrom]
        exact ⟨pre, mo, post, hsplit, (Nat.zero_add _).symm, happly⟩
      · exact hsame
    · intro heq
      have hnone : applied E a.session = [] := by
        by_contra hsome
        have := hnew hsome
        omega
      refine ⟨by rw [modifications_marketLogic, hnone, List.length_nil, Nat.add_zero], ?_⟩
      unfold modifyLogic Session.modifyLogic
      rw [run_of_appliedFrom_nil E hnone]
      rfl

/-- **A modification takes effect at most once.** In a run, no request is answered twice, and a tick
without a new request modifies nothing, exactly when no tick meets a request to apply that has been
applied or that nothing new has followed. -/
theorem audits_run (w : W) (es : List Event) :
    (Machine.Throughout (Audit.step E) OnceEach (.init E w) es ∧
        Machine.Along (Audit.step E) (TickOnce E) (.init E w) es) ↔
      Machine.Along (Audit.step E) (NoneLeftOver E) (.init E w) es := by
  have hstep : ∀ a e, Audited a → Audited (a.step E e) := fun a e h => audited_step E h e
  have hinit : Audited (.init E w) := ⟨rfl, rfl, Nat.le_refl 0⟩
  -- no account may be given twice, which only a tick can bring about
  have honce : Machine.Throughout (Audit.step E) OnceEach (.init E w) es ↔
      Machine.Along (Audit.step E) (NoneAgain E) (.init E w) es := by
    refine Machine.throughout_iff_along (I := Audited) (D := fun _ _ => True)
      (fun a e h _ => hstep a e h) (fun a e h _ hp => ?_) hinit ⟨rfl, List.nodup_nil⟩
      (Machine.along_of_forall fun _ _ => trivial)
    rw [OnceEach, and_iff_right (hstep a e h).length]
    cases e with
    | marketLogic =>
      show (a.accounts ++ accounts E a.session).Nodup ↔ _
      rw [List.nodup_append, h.applied, accounts, accountsFrom_eq]
      constructor
      · rintro ⟨-, -, hdisj⟩ i hi hold
        exact hdisj i hold i hi rfl
      · intro hagain
        refine ⟨h.applied ▸ hp.2, appliedFrom_nodup E _ _ _, ?_⟩
        rintro i hold j hj rfl
        exact hagain i hj hold
    | _ => exact iff_of_true hp.2 trivial
  -- with no new request a tick may apply nothing
  have htick : Machine.Along (Audit.step E) (TickOnce E) (.init E w) es ↔
      Machine.Along (Audit.step E) (HasNew E) (.init E w) es := by
    refine Machine.along_congr (K := fun _ _ => True) (fun a e h _ _ => hstep a e h)
      (fun a e h _ => ?_) hinit (Machine.along_of_forall fun _ _ => trivial)
    cases e with
    | marketLogic => exact tickOnce_iff E h
    | _ => exact Iff.rfl
  rw [honce, htick]
  constructor
  · rintro ⟨hagain, hnew⟩
    exact (hagain.and hnew).imp fun a e h => (noneLeftOver_iff E).mp h
  · intro h
    exact ⟨h.imp fun a e h => ((noneLeftOver_iff E).mpr h).1,
      h.imp fun a e h => ((noneLeftOver_iff E).mpr h).2⟩

/-- A request that stays in the queue is answered on two ticks. -/
theorem not_audits_second_tick :
    ¬ ∀ (W : Type) (E : Env W) (w : W) (es : List Event),
      Machine.Throughout (Audit.step E) OnceEach (.init E w) es ∧
        Machine.Along (Audit.step E) (TickOnce E) (.init E w) es := by
  intro h
  have hrun := (h Unit quietEnv () (loggedIn ++
    [enterPacket 'a' 100, modifyPacket 'a' 'B' 50, .marketLogic, .marketLogic])).1.last.2
  revert hrun
  decide +kernel

end OuchSession

end Evtsim
