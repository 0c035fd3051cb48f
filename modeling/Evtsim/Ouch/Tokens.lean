import Evtsim.Ouch.Book

/-!
# Token uniqueness in an `ouch_session`

A token is issued by an `OrderAccepted` or as the new token of an `OrderReplaced`. `enter_order` looks
for a token in the two maps only, and most ways out of `active_orders` leave no trace there;
`replace_logic` does not look at all. `unique_run` says that no token is issued twice, and that no
token is active and finished at once, exactly when every accepted order and every applied replacement
brings a token that has not been issued.
-/

namespace Evtsim

open Wire Ouch Session

namespace OuchSession

variable {W : Type} (E : Env W)

/-- The token that a message gives to an order. -/
def newToken : Ouch.OutMsg → Option Token
  | .orderAccepted m => some m.token
  | .orderReplaced m => some m.token
  | _ => none

/-- The tokens given to orders so far. -/
def issued (s : OuchSession W) : List Token := s.pendingOutMessages.filterMap newToken

/-- No token has been given to two orders, and no token is active and finished at once. -/
def Unique (s : OuchSession W) : Prop :=
  (issued s).Nodup ∧ ∀ k, k ∈ s.activeOrders → k ∉ s.finishedOrders

/-- `replace_logic` gives the order the new token. -/
def Replaces (st : Pass W) (ro : OuchReplaceOrderReq) : Prop :=
  replaceCancels ro (entry E.ouchOrder st.1 ro.existingToken.str).executedQty = false

instance (st : Pass W) (ro : OuchReplaceOrderReq) : Decidable (Replaces E st ro) :=
  inferInstanceAs (Decidable (_ = false))

/-- The session that `replace_logic` finds on a tick. -/
def beforeReplace (s : OuchSession W) : OuchSession W :=
  modifyLogic E (cancelLogic E (heartbeatLogic E s))

/-- An accepted order brings a token that has not been issued, and on a tick so does every applied
replacement at its turn. -/
def Fresh (s : OuchSession W) : Event → Prop
  | .packet p =>
    ∀ eo, s.l = true → request p = some (.enter eo) → Accepts E s eo → eo.token ∉ issued s
  | .marketLogic =>
    Machine.Along (replaceStep E) (fun st ro => Replaces E st ro → ro.newToken ∉ issued st.1)
      (beforeReplace E s, []) (beforeReplace E s).pendingReplace
  | _ => True

/-! ## What is issued -/

/-- A message issues the token that it gives, if any. -/
theorem issued_emit (s : OuchSession W) (w : W) (m : Ouch.OutMsg) :
    issued (s.emit w m) = issued s ++ (newToken m).toList := by
  unfold issued
  rw [emit_out, List.filterMap_append]
  cases h : newToken m <;> simp [h]

/-- Steps that concern no order issue no token. -/
theorem issued_of_idle {s s' : OuchSession W} (h : Idle s s') : issued s' = issued s := by
  obtain ⟨ms, hout, hms⟩ := h.out
  unfold issued
  rw [hout, List.filterMap_append]
  refine (congrArg _ (List.filterMap_eq_nil_iff.mpr ?_)).trans (List.append_nil _)
  intro m hm
  have hquiet := hms m hm
  cases m <;> first | rfl | cases hquiet

/-- A replacement that is applied issues its new token. -/
theorem issued_replaceStep (st : Pass W) (ro : OuchReplaceOrderReq) :
    issued (replaceStep E st ro).1 =
      if Replaces E st ro then issued st.1 ++ [ro.newToken] else issued st.1 := by
  rcases replaceStep_cases E st ro with ⟨hcancel, w, m, -, -, hs⟩ | ⟨happly, w, m, A, hm, -, -, hs⟩
  · rw [if_neg fun h => Bool.false_ne_true (h.symm.trans hcancel), hs, issued_emit]
    exact List.append_nil _
  · have hrep : Replaces E st ro := happly
    rw [if_pos hrep, hs, issued_emit]
    show issued st.1 ++ [m.token] = _
    rw [hm]

/-- A token more is distinct if it is new. -/
theorem nodup_append_singleton {l : List Token} {t : Token} :
    (l ++ [t]).Nodup ↔ l.Nodup ∧ t ∉ l := by
  rw [← List.concat_eq_append, List.nodup_concat, and_comm]

/-- A replace pass issues no token twice exactly when each applied replacement brings a new one. -/
theorem nodup_replaces (st : Pass W) (ros : List OuchReplaceOrderReq) :
    (issued (Machine.run (replaceStep E) st ros).1).Nodup ↔
      (issued st.1).Nodup ∧
        Machine.Along (replaceStep E) (fun st ro => Replaces E st ro → ro.newToken ∉ issued st.1)
          st ros := by
  refine Machine.run_iff_of_step (P := fun st : Pass W => (issued st.1).Nodup) ?_ st ros
  intro st ro
  rw [issued_replaceStep]
  by_cases happly : Replaces E st ro
  · rw [if_pos happly, nodup_append_singleton]
    exact and_congr_right' ⟨fun h _ => h, fun h => h happly⟩
  · rw [if_neg happly]
    exact ⟨fun h => ⟨h, fun h' => absurd h' happly⟩, And.left⟩

/-- A replace pass issues no token twice exactly when each replacement that is applied brings a new one. -/
theorem nodup_replaceLogic (s : OuchSession W) :
    (issued (replaceLogic E s)).Nodup ↔
      (issued s).Nodup ∧
        Machine.Along (replaceStep E) (fun st ro => Replaces E st ro → ro.newToken ∉ issued st.1)
          (s, []) s.pendingReplace :=
  nodup_replaces E (s, []) s.pendingReplace

/-! ## The keys of the two maps -/

/-- Every key held has been issued. -/
def HeldIssued (s : OuchSession W) : Prop :=
  ∀ k, k ∈ s.activeOrders ∨ k ∈ s.finishedOrders → ∃ t ∈ issued s, t.str = k

/-- Orders leave the book; nothing else changes. -/
structure Shrinks (s s' : OuchSession W) : Prop where
  active : ∀ k, k ∈ s'.activeOrders → k ∈ s.activeOrders
  finished : s'.finishedOrders = s.finishedOrders
  issued : issued s' = issued s

/-- What stays as it is brings no token. -/
theorem Shrinks.refl (s : OuchSession W) : Shrinks s s := ⟨fun _ h => h, rfl, rfl⟩

/-- Two steps by which orders only leave the book. -/
theorem Shrinks.trans {s s' s'' : OuchSession W} (h : Shrinks s s') (h' : Shrinks s' s'') :
    Shrinks s s'' :=
  ⟨fun k hk => h.1 k (h'.1 k hk), h'.2.trans h.2, h'.3.trans h.3⟩

/-- Tokens that were issued before are issued still. -/
theorem Shrinks.heldIssued {s s' : OuchSession W} (h : Shrinks s s') (hs : HeldIssued s) :
    HeldIssued s' := by
  intro k hk
  rw [h.issued]
  rw [h.finished] at hk
  exact hs k (hk.imp_left (h.active k))

/-- No token comes to be both active and finished. -/
theorem Shrinks.disjoint {s s' : OuchSession W} (h : Shrinks s s')
    (hs : ∀ k, k ∈ s.activeOrders → k ∉ s.finishedOrders) :
    ∀ k, k ∈ s'.activeOrders → k ∉ s'.finishedOrders := by
  intro k hk
  rw [h.finished]
  exact hs k (h.active k hk)

/-- Steps that concern no order let the book be. -/
theorem shrinks_of_idle {s s' : OuchSession W} (h : Idle s s') : Shrinks s s' :=
  ⟨fun _ hk => h.activeOrders ▸ hk, h.finishedOrders, issued_of_idle h⟩

/-- Writing back an order brings in no key. -/
theorem mem_insert_of_lookup {m : KeyedMap Key OuchOrder} {k k' : Key} {o o' : OuchOrder}
    (ho : m.lookup k' = some o) (hk : k ∈ m.insert k' o') : k ∈ m := by
  rcases (AList.mem_insert m).mp hk with rfl | hk
  · exact KeyedMap.mem_of_lookup ho
  · exact hk

/-- The end of a pass only takes orders away. -/
theorem shrinks_finishPass (st : Pass W) : Shrinks st.1 (finishPass st) :=
  ⟨fun _ hk => (KeyedMap.mem_eraseAll.mp hk).2, rfl, rfl⟩

/-- A cancel brings no order into the book. -/
theorem shrinks_cancelStep (st : Pass W) (co : OuchCancelOrderReq) :
    Shrinks st.1 (cancelStep E st co).1 := by
  rcases cancelStep_cases E st co with ⟨-, w, m, hs⟩ | ⟨o, ho, -, ⟨-, w, m, -, -, hs⟩ |
    ⟨-, -, w, hs⟩ | ⟨-, -, w, m, -, -, hs⟩⟩ <;> rw [hs]
  · exact ⟨fun _ h => h, rfl, (issued_emit ..).trans (List.append_nil _)⟩
  · exact ⟨fun _ h => h, rfl, (issued_emit ..).trans (List.append_nil _)⟩
  · exact ⟨fun _ h => h, rfl, rfl⟩
  · exact ⟨fun _ h => mem_insert_of_lookup ho h, rfl, (issued_emit ..).trans (List.append_nil _)⟩

/-- A modification brings no order into the book. -/
theorem shrinks_modifyStep (st : Pass W) (mo : OuchModifyOrderReq) :
    Shrinks st.1 (modifyStep E st mo).1 := by
  rcases modifyStep_cases E st mo with ⟨-, hs⟩ | ⟨o, ho, -, ⟨-, w, m, -, hs⟩ | ⟨-, w, m, -, hs⟩⟩ <;>
    rw [hs]
  · exact Shrinks.refl st.1
  · exact ⟨fun _ h => h, rfl, (issued_emit ..).trans (List.append_nil _)⟩
  · exact ⟨fun _ h => mem_insert_of_lookup ho h, rfl, (issued_emit ..).trans (List.append_nil _)⟩

/-- A cancel pass brings no order into the book. -/
theorem shrinks_cancelLogic (s : OuchSession W) : Shrinks s (cancelLogic E s) := by
  have hrun := Machine.run_invariant (f := cancelStep E) (I := fun st : Pass W => Shrinks s st.1)
    (fun st co h => h.trans (shrinks_cancelStep E st co)) (s := (s, [])) (Shrinks.refl s)
    s.pendingCancel
  have hcleared : Shrinks s { (Machine.run (cancelStep E) (s, []) s.pendingCancel).1 with
      pendingCancel := [] } := ⟨hrun.1, hrun.2, hrun.3⟩
  exact hcleared.trans (shrinks_finishPass (_, (Machine.run (cancelStep E) (s, [])
    s.pendingCancel).2))

/-- A modify pass brings no order into the book. -/
theorem shrinks_modifyLogic (s : OuchSession W) : Shrinks s (modifyLogic E s) := by
  have hrun := Machine.run_invariant (f := modifyStep E) (I := fun st : Pass W => Shrinks s st.1)
    (fun st mo h => h.trans (shrinks_modifyStep E st mo)) (s := (s, [])) (Shrinks.refl s)
    s.pendingModify
  exact hrun.trans (shrinks_finishPass _)

/-- `cancel_all` brings no order into the book. -/
theorem shrinks_cancelAll (s : OuchSession W) : Shrinks s (cancelAll E s).1 := by
  have hrun := Machine.run_invariant (f := cancelAllStep E)
    (I := fun st : OuchSession W × ℕ => issued st.1 = issued s) (by
      intro st k hst
      rcases cancelAllStep_cases E st k with ⟨-, h⟩ | ⟨o, o', w, -, -, ⟨m, -, -, h⟩ | h⟩ <;> rw [h]
      · exact hst
      · exact ((issued_emit ..).trans (List.append_nil _)).trans hst
      · exact hst)
    (s := ({ s with env := (E.visit s.activeOrders.keys s.env).2 }, 0)) rfl
    (E.visit s.activeOrders.keys s.env).1.val
  exact ⟨fun k hk => absurd hk (AList.notMem_empty k), (cancelAll_frame E s).2, hrun⟩

/-- An execution pass moves orders from the book to the finished orders. -/
theorem executionLogic_keys (s : OuchSession W) :
    issued (executionLogic E s) = issued s ∧
      (∀ k, k ∈ (executionLogic E s).activeOrders → k ∈ s.activeOrders) ∧
      ∀ k, k ∈ (executionLogic E s).finishedOrders →
        k ∈ s.finishedOrders ∨ k ∈ s.activeOrders ∧ k ∉ (executionLogic E s).activeOrders := by
  -- the invariant of the walk: what is finished was there, or is collected
  have hrun := Machine.run_invariant (f := executionStep E)
    (I := fun st : Pass W => issued st.1 = issued s ∧
      (∀ k, k ∈ st.1.activeOrders → k ∈ s.activeOrders) ∧
      ∀ k, k ∈ st.1.finishedOrders →
        k ∈ s.finishedOrders ∨ k ∈ s.activeOrders ∧ k ∈ st.2) ?_
    (s := ({ s with env := (E.visit s.activeOrders.keys s.env).2 }, []))
    ⟨rfl, fun _ h => h, fun _ h => .inl h⟩ (E.visit s.activeOrders.keys s.env).1.val
  · obtain ⟨hissued, hactive, hfinished⟩ := hrun
    refine ⟨hissued, fun k hk => hactive k (KeyedMap.mem_eraseAll.mp hk).2, fun k hk => ?_⟩
    exact (hfinished k hk).imp_right fun ⟨hact, hdone⟩ =>
      ⟨hact, fun h => (KeyedMap.mem_eraseAll.mp h).1 hdone⟩
  · rintro st k ⟨hissued, hactive, hfinished⟩
    have hkeep : ∀ k', k' ∈ st.1.finishedOrders →
        k' ∈ s.finishedOrders ∨ k' ∈ s.activeOrders ∧ k' ∈ st.2 ++ [k] := fun k' hk' =>
      (hfinished k' hk').imp_right (And.imp_right (List.mem_append_left _))
    rcases executionStep_cases E st k with ⟨-, hs⟩ | ⟨o, ho, ⟨-, w, hs⟩ | ⟨o', w, -, ⟨m, -, -, hs⟩ |
      ⟨-, hs⟩ | ⟨exe, m, -, -, -, -, hs⟩ | hs | hs⟩⟩ <;> rw [hs]
    · exact ⟨hissued, hactive, hfinished⟩
    · exact ⟨hissued, hactive, hfinished⟩
    · exact ⟨((issued_emit ..).trans (List.append_nil _)).trans hissued,
        fun k' hk' => hactive k' (mem_insert_of_lookup ho hk'), hkeep⟩
    · exact ⟨hissued, fun k' hk' => hactive k' (mem_insert_of_lookup ho hk'), hkeep⟩
    · exact ⟨((issued_emit ..).trans (List.append_nil _)).trans hissued,
        fun k' hk' => hactive k' (mem_insert_of_lookup ho hk'), hfinished⟩
    · exact ⟨hissued, fun k' hk' => hactive k' (mem_insert_of_lookup ho hk'), hfinished⟩
    · refine ⟨hissued, fun k' hk' => hactive k' (mem_insert_of_lookup ho hk'), fun k' hk' => ?_⟩
      -- the order visited goes to the finished ones and is collected
      rcases (AList.mem_insert st.1.finishedOrders).mp hk' with rfl | hold
      · exact .inr ⟨hactive k' (KeyedMap.mem_of_lookup ho),
          List.mem_append_right _ (List.mem_singleton.mpr rfl)⟩
      · exact hkeep k' hold

/-- What holds within a replace pass: every key of the book has been issued or collected, and as long
as the new tokens are new, the finished ones among them have been collected. -/
structure Replacing (s : OuchSession W) (fresh : Prop) (st : Pass W) : Prop where
  finished : st.1.finishedOrders = s.finishedOrders
  issued : ∀ t ∈ issued s, t ∈ issued st.1
  active : ∀ k, k ∈ st.1.activeOrders → (∃ t ∈ OuchSession.issued st.1, t.str = k) ∨ k ∈ st.2
  disjoint : fresh → ∀ k, k ∈ st.1.activeOrders → k ∈ s.finishedOrders → k ∈ st.2

/-- One replacement of a pass, fresh tokens provided. -/
theorem replacing_replaceStep {s : OuchSession W} (hheld : HeldIssued s) {fresh : Prop}
    {st : Pass W} (h : Replacing s fresh st) {ro : OuchReplaceOrderReq}
    (hro : fresh → Replaces E st ro → ro.newToken ∉ issued st.1) :
    Replacing s fresh (replaceStep E st ro) := by
  have hissued := issued_replaceStep E st ro
  have hgrow : ∀ t ∈ issued st.1, t ∈ issued (replaceStep E st ro).1 := by
    intro t ht
    rw [hissued]
    split
    · exact List.mem_append_left _ ht
    · exact ht
  refine ⟨?_, fun t ht => hgrow t (h.issued t ht), ?_, ?_⟩
  · exact (sameQueues_replaceStep E st ro).2.trans h.finished
  all_goals
    rcases replaceStep_cases E st ro with ⟨-, w, m, -, -, hs⟩ |
      ⟨happly, w, m, A, hm, -, hA, hs⟩
  · -- the replacement cancels: what it has under the existing token is collected
    intro k hk
    rw [hs] at hk ⊢
    rcases KeyedMap.mem_touch.mp hk with rfl | hold
    · exact .inr (List.mem_append_right _ (List.mem_singleton.mpr rfl))
    · exact (h.active k hold).imp (fun ⟨t, ht, htk⟩ => ⟨t, hs ▸ hgrow t ht, htk⟩)
        (List.mem_append_left _)
  · intro k hk
    have hnew : ro.newToken ∈ issued (replaceStep E st ro).1 := by
      rw [hissued, if_pos (show Replaces E st ro from happly)]
      exact List.mem_append_right _ (List.mem_singleton.mpr rfl)
    rw [hs] at hk
    obtain ⟨o, ho⟩ := KeyedMap.mem_iff_lookup.mp hk
    have ho' := (hA k).symm.trans ho
    split at ho'
    · cases ho'
    split at ho'
    · rename_i hkey
      exact .inl ⟨ro.newToken, hnew, hkey.symm⟩
    · refine (h.active k (KeyedMap.mem_of_lookup ho')).imp
        (fun ⟨t, ht, htk⟩ => ⟨t, hgrow t ht, htk⟩) ?_
      rw [hs]
      exact id
  · intro hfresh k hk hfin
    rw [hs] at hk ⊢
    rcases KeyedMap.mem_touch.mp hk with rfl | hold
    · exact List.mem_append_right _ (List.mem_singleton.mpr rfl)
    · exact List.mem_append_left _ (h.disjoint hfresh k hold hfin)
  · intro hfresh k hk hfin
    rw [hs] at hk ⊢
    obtain ⟨o, ho⟩ := KeyedMap.mem_iff_lookup.mp hk
    have ho' := (hA k).symm.trans ho
    split at ho'
    · cases ho'
    split at ho'
    · -- a finished token has been issued, so it is not the new one
      rename_i hkey
      obtain ⟨t, ht, htk⟩ := hheld k (.inr hfin)
      have heq : t = ro.newToken := TokenOf.str_inj.mp (htk.trans hkey)
      exact absurd (h.issued _ (heq ▸ ht)) (hro hfresh happly)
    · exact h.disjoint hfresh k (KeyedMap.mem_of_lookup ho') hfin

/-- A replace pass keeps every key issued, and keeps the two maps apart as long as its new tokens are
new. -/
theorem replaceLogic_keys {s : OuchSession W} (hheld : HeldIssued s) :
    HeldIssued (replaceLogic E s) ∧
      ((∀ k, k ∈ s.activeOrders → k ∉ s.finishedOrders) →
        Machine.Along (replaceStep E) (fun st ro => Replaces E st ro → ro.newToken ∉ issued st.1)
          (s, []) s.pendingReplace →
        ∀ k, k ∈ (replaceLogic E s).activeOrders → k ∉ (replaceLogic E s).finishedOrders) := by
  have hrun : ∀ fresh : Prop, (fresh → ∀ k, k ∈ s.activeOrders → k ∉ s.finishedOrders) →
      (fresh → Machine.Along (replaceStep E)
        (fun st ro => Replaces E st ro → ro.newToken ∉ issued st.1) (s, []) s.pendingReplace) →
      Replacing s fresh (Machine.run (replaceStep E) (s, []) s.pendingReplace) := by
    intro fresh hdisj halong
    refine Machine.run_of_along (I := Replacing s fresh)
      (C := fun st ro => fresh → Replaces E st ro → ro.newToken ∉ issued st.1)
      (fun st ro h hro => replacing_replaceStep E hheld h hro)
      ⟨rfl, fun _ ht => ht, fun k hk => .inl (hheld k (.inl hk)),
        fun hfresh k hk hfin => absurd hfin (hdisj hfresh k hk)⟩ ?_
    rw [Machine.along_iff]
    intro pre ro post hsplit hfresh
    exact Machine.along_iff.mp (halong hfresh) pre ro post hsplit
  constructor
  · obtain ⟨hfin, hgrow, hact, -⟩ := hrun False False.elim False.elim
    rintro k (hk | hk)
    · obtain ⟨hdone, hk⟩ := KeyedMap.mem_eraseAll.mp hk
      exact (hact k hk).resolve_right hdone
    · obtain ⟨t, ht, htk⟩ := hheld k (.inr (hfin ▸ hk))
      exact ⟨t, hgrow t ht, htk⟩
  · intro hdisj halong k hk hfin
    obtain ⟨hsame, -, -, hdone⟩ := hrun True (fun _ => hdisj) fun _ => halong
    obtain ⟨hnot, hk⟩ := KeyedMap.mem_eraseAll.mp hk
    exact hnot (hdone trivial k hk (hsame ▸ hfin))

/-! ## Runs -/

/-- A packet keeps tokens unique exactly when it does not bring an issued one to an accepted order. -/
theorem unique_packet {s : OuchSession W} (hs : HeldIssued s) (p : Mem) :
    HeldIssued (step E s (.packet p)) ∧
      (Unique s → (Unique (step E s (.packet p)) ↔ Fresh E s (.packet p))) := by
  have hother : ∀ {s'}, Shrinks s s' → Fresh E s (.packet p) →
      HeldIssued s' ∧ (Unique s → (Unique s' ↔ Fresh E s (.packet p))) :=
    fun hshrinks hfresh => ⟨hshrinks.heldIssued hs, fun hu =>
      iff_of_true ⟨hshrinks.issued ▸ hu.1, hshrinks.disjoint hu.2⟩ hfresh⟩
  rcases step_packet E s p with ⟨hnone, hsame⟩ | ⟨r, hl, hr, hstep⟩
  · rw [hsame]
    refine hother (Shrinks.refl s) fun eo hl hreq _ => ?_
    rcases hnone with h | h
    · exact absurd (h.symm.trans hl) Bool.false_ne_true
    · rw [h] at hreq
      cases hreq
  rw [hstep]
  have hnot : (∀ eo, r = .enter eo → ¬ Accepts E s eo) → Fresh E s (.packet p) := by
    intro h eo _ hreq hacc
    exact absurd hacc (h eo (Option.some.inj (hr.symm.trans hreq)))
  rcases handle_cases E s r with ⟨hidle, hnacc⟩ | ⟨eo, w, d, m, rfl, hacc, hm, -, hh⟩ |
    ⟨mo, w, rfl, -, -, hh⟩ | ⟨ro, w, rfl, -, hh⟩ | ⟨co, w, rfl, -, -, hh⟩
  · exact hother (shrinks_of_idle hidle) (hnot hnacc)
  · -- an accepted order issues its token
    rw [hh]
    have hissued : issued ((s.withActive (s.activeOrders.insert eo.token.str
        (OuchOrder.parseOrder d eo))).emit w (.orderAccepted m)) = issued s ++ [eo.token] := by
      rw [issued_emit]
      show issued s ++ [m.token] = _
      rw [hm]
    have hfresh : Fresh E s (.packet p) ↔ eo.token ∉ issued s := by
      constructor
      · exact fun h => h eo hl hr hacc
      · intro h eo' _ hreq _
        rw [hr] at hreq
        cases hreq
        exact h
    refine ⟨?_, fun hu => ?_⟩
    · intro k hk
      rw [hissued]
      have hold : k ∈ s.activeOrders ∨ k ∈ s.finishedOrders → ∃ t ∈ issued s ++ [eo.token], t.str = k :=
        fun h => (hs k h).imp fun t ⟨ht, htk⟩ => ⟨List.mem_append_left _ ht, htk⟩
      rcases hk with hk | hk
      · rcases (AList.mem_insert s.activeOrders).mp hk with rfl | hk
        · exact ⟨eo.token, List.mem_append_right _ (List.mem_singleton.mpr rfl), rfl⟩
        · exact hold (.inl hk)
      · exact hold (.inr hk)
    · rw [hfresh, Unique, hissued, nodup_append_singleton]
      refine ⟨fun h => h.1.2, fun h => ⟨⟨hu.1, h⟩, fun k hk => ?_⟩⟩
      rcases (AList.mem_insert s.activeOrders).mp hk with rfl | hold
      · exact hacc.2.2.2.2
      · exact hu.2 k hold
  · rw [hh]
    exact hother ⟨fun _ h => h, rfl, rfl⟩ (hnot fun _ h => nomatch h)
  · rw [hh]
    exact hother ⟨fun _ h => h, rfl, rfl⟩ (hnot fun _ h => nomatch h)
  · rw [hh]
    exact hother ⟨fun _ h => h, rfl, rfl⟩ (hnot fun _ h => nomatch h)

/-- A tick keeps tokens unique exactly when its applied replacements bring new ones. -/
theorem unique_marketLogic {s : OuchSession W} (hs : HeldIssued s) :
    HeldIssued (marketLogic E s) ∧
      (Unique s → (Unique (marketLogic E s) ↔ Fresh E s .marketLogic)) := by
  have hbefore : Shrinks s (beforeReplace E s) :=
    ((shrinks_of_idle (idle_heartbeatLogic E s)).trans (shrinks_cancelLogic E _)).trans
      (shrinks_modifyLogic E _)
  have hheld := hbefore.heldIssued hs
  have hreplace := replaceLogic_keys E hheld
  have hexec := executionLogic_keys E (replaceLogic E (beforeReplace E s))
  have hnodup : (issued (replaceLogic E (beforeReplace E s))).Nodup ↔
      (issued s).Nodup ∧ Fresh E s .marketLogic := by
    rw [← hbefore.issued]
    exact nodup_replaceLogic E (beforeReplace E s)
  show HeldIssued (executionLogic E (replaceLogic E (beforeReplace E s))) ∧
    (Unique s → (Unique (executionLogic E (replaceLogic E (beforeReplace E s))) ↔ _))
  generalize replaceLogic E (beforeReplace E s) = s' at *
  obtain ⟨hissued, hactive, hfinished⟩ := hexec
  constructor
  · intro k hk
    rw [hissued]
    refine hreplace.1 k ?_
    rcases hk with hk | hk
    · exact .inl (hactive k hk)
    · exact (hfinished k hk).elim .inr fun h => .inl h.1
  · intro hu
    rw [Unique, hissued, hnodup]
    refine ⟨fun h => h.1.2, fun hfresh => ⟨⟨hu.1, hfresh⟩, fun k hk hfin => ?_⟩⟩
    -- an order that has just moved to the finished orders has left the book
    rcases hfinished k hfin with hold | ⟨-, hgone⟩
    · exact hreplace.2 (hbefore.disjoint hu.2) hfresh k (hactive k hk) hold
    · exact hgone hk

/-- **Token uniqueness.** In a run, no token is ever issued twice and no token is ever active and
finished at once, exactly when every accepted order and every applied replacement brings a token that
has not been issued. -/
theorem unique_run (w : W) (es : List Event) :
    Machine.Throughout (step E) Unique (init E w) es ↔
      Machine.Along (step E) (Fresh E) (init E w) es := by
  refine Machine.throughout_iff_along (I := HeldIssued) (D := fun _ _ => True) ?_ ?_ ?_ ?_
    (Machine.along_of_forall fun _ _ => trivial)
  · intro s e hs _
    cases e with
    | setLogger => exact hs
    | packet p => exact (unique_packet E hs p).1
    | marketLogic => exact (unique_marketLogic E hs).1
    | cancelAll =>
      exact (shrinks_cancelAll E s).heldIssued hs
    | disconnect => exact hs
  · intro s e hs _ hu
    cases e with
    | setLogger => exact iff_of_true hu trivial
    | packet p => exact (unique_packet E hs p).2 hu
    | marketLogic => exact (unique_marketLogic E hs).2 hu
    | cancelAll =>
      have hshrinks := shrinks_cancelAll E s
      exact iff_of_true ⟨hshrinks.issued ▸ hu.1, hshrinks.disjoint hu.2⟩ trivial
    | disconnect => exact iff_of_true hu trivial
  · rintro k (hk | hk) <;> exact absurd hk (AList.notMem_empty k)
  · exact ⟨List.nodup_nil, fun k hk => absurd hk (AList.notMem_empty k)⟩

/-- A token whose order has been cancelled is accepted a second time. -/
theorem not_unique_reentered :
    ¬ ∀ (W : Type) (E : Env W) (w : W) (es : List Event), Unique (run E w es) := by
  intro h
  have hrun := (h Unit quietEnv () (loggedIn ++ [enterPacket 'a' 100, cancelPacket 'a' 0,
    .marketLogic, enterPacket 'a' 100])).1
  revert hrun
  decide +kernel

end OuchSession

end Evtsim
