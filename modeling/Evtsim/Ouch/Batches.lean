import Evtsim.Ouch.Frame

/-!
# A batch of requests, and its requests in two batches

`modify_logic` and `replace_logic` collect the tokens of the orders that a request has ended and erase
them after the loop. So a later request of the same batch still finds these orders, where a second batch
does not. `Alike` relates the loop over one batch to the loop over the second of two: outside the
collected tokens they cannot be told apart.
-/

namespace Evtsim

open Wire Ouch Log Machine Session

namespace OuchSession

variable {W : Type} (E : Env W)

/-- The same orders are active, and the same messages have been sent. -/
structure SameBook (s s' : OuchSession W) : Prop where
  active : ∀ k, s.activeOrders.lookup k = s'.activeOrders.lookup k
  out : s.pendingOutMessages = s'.pendingOutMessages

/-- `modify_logic` with the requests `q` pending. -/
def modifyBatch (s : OuchSession W) (q : List OuchModifyOrderReq) : OuchSession W :=
  modifyLogic E { s with pendingModify := q }

/-- `replace_logic` with the requests `q` pending. -/
def replaceBatch (s : OuchSession W) (q : List OuchReplaceOrderReq) : OuchSession W :=
  replaceLogic E { s with pendingReplace := q }

/-! ## Two loops -/

/-- In `st` the tokens `d` are collected, in `st'` they are erased; the other orders are the same. -/
structure Behind (d : List Key) (st st' : Pass W) : Prop where
  active : ∀ k, k ∉ d → st.1.activeOrders.lookup k = st'.1.activeOrders.lookup k
  gone : ∀ k ∈ d, st'.1.activeOrders.lookup k = none

/-- But for the tokens `d`, the two loops cannot be told apart. -/
structure Alike (d : List Key) (st st' : Pass W) : Prop extends Behind d st st' where
  env : st.1.env = st'.1.env
  startOfDay : st.1.own.startOfDay = st'.1.own.startOfDay
  out : st.1.pendingOutMessages = st'.1.pendingOutMessages
  done : ∀ k, k ∈ st.2 ↔ k ∈ d ∨ k ∈ st'.2

section

variable {d : List Key} {s s' : OuchSession W} {c c' : List Key} {k : Key}

/-- Both runs write back the same order. -/
theorem Behind.insert {st st' : Pass W} (h : Behind d st st') (hk : k ∉ d) (o : OuchOrder) :
    Behind d (st.1.withActive (st.1.activeOrders.insert k o), c)
      (st'.1.withActive (st'.1.activeOrders.insert k o), c') := by
  constructor
  · intro k' hk'
    show (st.1.activeOrders.insert k o).lookup k' = (st'.1.activeOrders.insert k o).lookup k'
    rw [KeyedMap.lookup_insert, KeyedMap.lookup_insert, h.active k' hk']
  · intro k' hk'
    have hne : k' ≠ k := fun heq => hk (heq ▸ hk')
    exact (AList.lookup_insert_ne hne).trans (h.gone k' hk')

/-- Two sessions that are alike write back the same order. -/
theorem Alike.insert (h : Alike d (s, c) (s', c')) (hk : k ∉ d) (o : OuchOrder) :
    Alike d (s.withActive (s.activeOrders.insert k o), c)
      (s'.withActive (s'.activeOrders.insert k o), c') :=
  ⟨h.toBehind.insert hk o, h.env, h.startOfDay, h.out, h.done⟩

/-- Both collect the same token. -/
theorem Alike.collect (h : Alike d (s, c) (s', c')) (k : Key) :
    Alike d (s, c ++ [k]) (s', c' ++ [k]) := by
  refine ⟨⟨h.active, h.gone⟩, h.env, h.startOfDay, h.out, fun k' => ?_⟩
  show k' ∈ c ++ [k] ↔ k' ∈ d ∨ k' ∈ c' ++ [k]
  rw [List.mem_append, List.mem_append, ← or_assoc]
  exact or_congr_left (h.done k')

/-- Both send the same message. -/
theorem Alike.emit (h : Alike d (s, c) (s', c')) (w : W) (m : Ouch.OutMsg) :
    Alike d (s.emit w m, c) (s'.emit w m, c') :=
  ⟨⟨h.active, h.gone⟩, rfl, h.startOfDay, congrArg (· ++ [m]) h.out, h.done⟩

/-- A timestamp depends on the start of the day and the clock. -/
theorem getTimestamp_congr (h : s.own.startOfDay = s'.own.startOfDay) (w : W) :
    getTimestamp E s w = getTimestamp E s' w := by
  unfold getTimestamp
  rw [h]

/-- Both report the same cancellation. -/
theorem Alike.constructOrderCanceled (h : Alike d (s, c) (s', c')) (n : UInt32) (r : CancelReason)
    (t : Token) :
    Alike d (constructOrderCanceled E s n r t, c) (constructOrderCanceled E s' n r t, c') := by
  have henv : s.env = s'.env := h.env
  unfold OuchSession.constructOrderCanceled
  rw [getTimestamp_congr E h.startOfDay, henv]
  exact h.emit _ _

/-- Both report the same modification. -/
theorem Alike.constructOrderModified (h : Alike d (s, c) (s', c')) (n : UInt32)
    (mo : OuchModifyOrderReq) :
    Alike d (constructOrderModified E s n mo, c) (constructOrderModified E s' n mo, c') := by
  have henv : s.env = s'.env := h.env
  unfold OuchSession.constructOrderModified
  rw [getTimestamp_congr E h.startOfDay, henv]
  exact h.emit _ _

/-- Both report the same replacement, made in the same memory. -/
theorem Alike.constructOrderReplaced (h : Alike d (s, c) (s', c')) (ro : OuchReplaceOrderReq)
    (o : OuchOrder) :
    Alike d (constructOrderReplaced E s ro o, c) (constructOrderReplaced E s' ro o, c') := by
  have henv : s.env = s'.env := h.env
  unfold OuchSession.constructOrderReplaced
  simp only [getTimestamp_congr E h.startOfDay, henv]
  exact h.emit _ _

/-- The subscript default-constructs in both loops or in neither. -/
theorem Alike.subscript (h : Alike d (s, c) (s', c')) (hk : k ∉ d) :
    Alike d (subscript E.ouchOrder s k, c) (subscript E.ouchOrder s' k, c') := by
  have henv : s.env = s'.env := h.env
  have hlook : s.activeOrders.lookup k = s'.activeOrders.lookup k := h.active k hk
  have hmem : k ∈ s.activeOrders ↔ k ∈ s'.activeOrders := by
    rw [KeyedMap.mem_iff_lookup, KeyedMap.mem_iff_lookup, hlook]
  unfold Session.subscript
  by_cases hin : k ∈ s.activeOrders
  · rw [if_pos hin, if_pos (hmem.mp hin)]
    exact h
  · rw [if_neg hin, if_neg fun hin' => hin (hmem.mpr hin')]
    dsimp only
    rw [KeyedMap.touch_of_notMem _ hin, KeyedMap.touch_of_notMem _ fun hin' => hin (hmem.mpr hin'), henv]
    have hinsert := h.insert hk (E.ouchOrder s'.env).1
    exact ⟨⟨hinsert.active, hinsert.gone⟩, rfl, h.startOfDay, h.out, h.done⟩

/-- The order of `a` moves to `b` in both. -/
theorem Alike.swapErase (h : Alike d (s, c) (s', c')) {a b : Key} (ha : a ∉ d) (hb : b ∉ d) :
    Alike d (s.withActive ((KeyedMap.swap a b s.activeOrders).erase a), c)
      (s'.withActive ((KeyedMap.swap a b s'.activeOrders).erase a), c') := by
  refine ⟨⟨fun k hk => ?_, fun k hk => ?_⟩, h.env, h.startOfDay, h.out, h.done⟩
  · show ((KeyedMap.swap a b s.activeOrders).erase a).lookup k =
      ((KeyedMap.swap a b s'.activeOrders).erase a).lookup k
    rw [KeyedMap.lookup_erase, KeyedMap.lookup_erase,
      KeyedMap.lookup_swap_congr (h.active a ha) (h.active b hb) (h.active k hk)]
  · show ((KeyedMap.swap a b s'.activeOrders).erase a).lookup k = none
    have hka : k ≠ a := fun heq => ha (heq ▸ hk)
    have hkb : k ≠ b := fun heq => hb (heq ▸ hk)
    rw [KeyedMap.lookup_erase, if_neg hka, KeyedMap.lookup_swap_of_ne hka hkb]
    exact h.gone k hk

end

/-! ## One request in both -/

variable {d : List Key} {st st' : Pass W}

/-- A modification, unless it applies to a collected order. -/
theorem alike_modifyStep (h : Alike d st st') {mo : OuchModifyOrderReq}
    (hmo : mo.token.str ∈ d → ¬ Applies st mo) : Alike d (modifyStep E st mo) (modifyStep E st' mo) := by
  by_cases hk : mo.token.str ∈ d
  · have hskip : modifyStep E st mo = st := by
      rcases modifyStep_cases E st mo with ⟨-, hs⟩ | ⟨o, ho, hpass, -⟩
      · exact hs
      · exact absurd ⟨o, ho, hpass⟩ (hmo hk)
    have hskip' : modifyStep E st' mo = st' := by
      unfold modifyStep
      rw [h.gone _ hk]
    rw [hskip, hskip']
    exact h
  · unfold modifyStep
    rw [h.active _ hk]
    rcases st'.1.activeOrders.lookup mo.token.str with _ | o
    · exact h
    dsimp only
    split
    · exact h
    split
    · exact (Alike.constructOrderModified E h _ _).collect _
    · exact Alike.constructOrderModified E (h.insert hk _) _ _

/-- `replace_logic` moves an order, rather than cancel it. -/
def Moves (st : Pass W) (ro : OuchReplaceOrderReq) : Prop :=
  replaceCancels ro (entry E.ouchOrder st.1 ro.existingToken.str).executedQty = false

instance (st : Pass W) (ro : OuchReplaceOrderReq) : Decidable (Moves E st ro) :=
  inferInstanceAs (Decidable (_ = _))

/-- A replacement, unless it reads a collected order or moves an order to its token. -/
theorem alike_replaceStep (h : Alike d st st') {ro : OuchReplaceOrderReq}
    (hold : ro.existingToken.str ∉ d) (hnew : Moves E st ro → ro.newToken.str ∉ d) :
    Alike d (replaceStep E st ro) (replaceStep E st' ro) := by
  have hsub := Alike.subscript E h hold
  have hentry : (subscript E.ouchOrder st.1 ro.existingToken.str).activeOrders.lookup ro.existingToken.str =
      some (entry E.ouchOrder st.1 ro.existingToken.str) := by
    obtain ⟨w, hs⟩ := subscript_eq E.ouchOrder st.1 ro.existingToken.str
    rw [hs]
    exact lookup_touch_self E.ouchOrder st.1 _
  have hentry' : (subscript E.ouchOrder st'.1 ro.existingToken.str).activeOrders.lookup ro.existingToken.str =
      some (entry E.ouchOrder st.1 ro.existingToken.str) := (hsub.active _ hold).symm.trans hentry
  unfold replaceStep
  simp only [hentry, hentry']
  by_cases hcancel : replaceCancels ro (entry E.ouchOrder st.1 ro.existingToken.str).executedQty = true
  · rw [if_pos hcancel, if_pos hcancel]
    exact (Alike.constructOrderCanceled E hsub _ _ _).collect _
  · rw [if_neg hcancel, if_neg hcancel]
    have hfree := hnew (Bool.eq_false_iff.mpr hcancel)
    have hreplaced := Alike.constructOrderReplaced E (hsub.insert hold
      (replaced (entry E.ouchOrder st.1 ro.existingToken.str) ro)) ro
      (replaced (entry E.ouchOrder st.1 ro.existingToken.str) ro)
    exact (Alike.subscript E hreplaced hfree).swapErase hold hfree

/-! ## The end of a loop -/

/-- What the first of two loops has collected is erased when the second starts. -/
theorem Alike.erased (h : Alike [] st st') : Alike st.2 st (finishPass st', []) := by
  have hdone : ∀ k, k ∈ st.2 ↔ k ∈ st'.2 := fun k =>
    (h.done k).trans (or_iff_right List.not_mem_nil)
  refine ⟨⟨fun k hk => ?_, fun k hk => lookup_finishPass_of_mem ((hdone k).mp hk)⟩, h.env,
    h.startOfDay, h.out, fun k => (or_iff_left List.not_mem_nil).symm⟩
  exact (h.active k List.not_mem_nil).trans
    (lookup_finishPass_of_notMem fun hk' => hk ((hdone k).mpr hk')).symm

/-- Sessions that are alike at the end of their passes have the same book. -/
theorem Alike.sameBook (h : Alike d st st') : SameBook (finishPass st) (finishPass st') := by
  refine ⟨fun k => ?_, h.out⟩
  by_cases hk : k ∈ st.2
  · rw [lookup_finishPass_of_mem hk]
    rcases (h.done k).mp hk with hd | hc
    · by_cases hc : k ∈ st'.2
      · rw [lookup_finishPass_of_mem hc]
      · rw [lookup_finishPass_of_notMem hc, h.gone k hd]
    · rw [lookup_finishPass_of_mem hc]
  · have hout := not_or.mp (mt (h.done k).mpr hk)
    rw [lookup_finishPass_of_notMem hk, lookup_finishPass_of_notMem hout.2, h.active k hout.1]

/-- Two sessions that differ in their queues only. -/
structure SameButQueues (s s' : OuchSession W) : Prop where
  env : s.env = s'.env
  startOfDay : s.own.startOfDay = s'.own.startOfDay
  activeOrders : s.activeOrders = s'.activeOrders
  pendingOutMessages : s.pendingOutMessages = s'.pendingOutMessages

/-- Sessions with the same book start their passes alike. -/
theorem SameButQueues.alike {s s' : OuchSession W} (h : SameButQueues s s') :
    Alike [] (s, []) (s', []) :=
  ⟨⟨fun k _ => congrArg (fun m : KeyedMap Key OuchOrder => m.lookup k) h.activeOrders,
    fun _ hk => absurd hk List.not_mem_nil⟩, h.env, h.startOfDay, h.pendingOutMessages,
    fun _ => (or_iff_right List.not_mem_nil).symm⟩

/-- The second of two loops starts with other queues. -/
theorem Alike.of_sameButQueues {s s' : OuchSession W} {c : List Key} (h : Alike d st (s, c))
    (hs : SameButQueues s s') : Alike d st (s', c) := by
  refine ⟨⟨fun k hk => ?_, fun k hk => ?_⟩, h.env.trans hs.env, h.startOfDay.trans hs.startOfDay,
    h.out.trans hs.pendingOutMessages, h.done⟩
  · rw [h.active k hk]
    exact congrArg (fun m : KeyedMap Key OuchOrder => m.lookup k) hs.activeOrders
  · have hgone := h.gone k hk
    rw [← hgone]
    exact congrArg (fun m : KeyedMap Key OuchOrder => m.lookup k) hs.activeOrders.symm

/-- A batch against its two parts, for a loop `f` whose steps keep two runs alike as long as they meet
`C`. -/
theorem sameBook_of_along {ε : Type} {f : Pass W → ε → Pass W} {C : List Key → Pass W → ε → Prop}
    (hf : ∀ d st st' e, Alike d st st' → C d st e → Alike d (f st e) (f st' e))
    (hnil : ∀ st e, C [] st e) {s s' s'' : OuchSession W} {q₁ q₂ : List ε} (hs : SameButQueues s s')
    (hs'' : SameButQueues (finishPass (Machine.run f (s', []) q₁)) s'')
    (h : Along f (C (Machine.run f (s, []) q₁).2) (Machine.run f (s, []) q₁) q₂) :
    SameBook (finishPass (Machine.run f (s, []) (q₁ ++ q₂)))
      (finishPass (Machine.run f (s'', []) q₂)) := by
  have hfirst : Alike [] (Machine.run f (s, []) q₁) (Machine.run f (s', []) q₁) :=
    run_related (R := Alike []) (hf []) hs.alike
      (along_iff.mpr fun _ e _ _ => hnil _ e)
  have hsecond := run_related (R := Alike (Machine.run f (s, []) q₁).2) (hf _)
    (hfirst.erased.of_sameButQueues hs'') h
  rw [run_append]
  exact hsecond.sameBook

/-! ## Replacements -/

/-- No request of `q₂` reads an order that a request of `q₁` has ended, or moves an order to its
token. -/
def SparesCollected (s : OuchSession W) (q₁ q₂ : List OuchReplaceOrderReq) : Prop :=
  let st := Machine.run (replaceStep E) ({ s with pendingReplace := q₁ ++ q₂ }, []) q₁
  Along (replaceStep E) (fun st' ro => ro.existingToken.str ∉ st.2 ∧
    (Moves E st' ro → ro.newToken.str ∉ st.2)) st q₂

instance (s : OuchSession W) (q₁ q₂ : List OuchReplaceOrderReq) :
    Decidable (SparesCollected E s q₁ q₂) :=
  inferInstanceAs (Decidable (Along _ _ _ _))

/-- Two batches of replacements leave the book that they leave as one, if the second does not touch what
the first has collected. -/
theorem sameBook_replaceBatch {s : OuchSession W} {q₁ q₂ : List OuchReplaceOrderReq}
    (h : SparesCollected E s q₁ q₂) :
    SameBook (replaceBatch E s (q₁ ++ q₂)) (replaceBatch E (replaceBatch E s q₁) q₂) := by
  have hstart : SameButQueues { s with pendingReplace := q₁ ++ q₂ } { s with pendingReplace := q₁ } :=
    ⟨rfl, rfl, rfl, rfl⟩
  have hagain : SameButQueues
      (finishPass (Machine.run (replaceStep E) ({ s with pendingReplace := q₁ }, []) q₁))
      { replaceBatch E s q₁ with pendingReplace := q₂ } := ⟨rfl, rfl, rfl, rfl⟩
  have hsame := sameBook_of_along (f := replaceStep E)
    (C := fun d st ro => ro.existingToken.str ∉ d ∧ (Moves E st ro → ro.newToken.str ∉ d))
    (fun _ _ _ _ h hC => alike_replaceStep E h hC.1 hC.2)
    (fun _ _ => ⟨List.not_mem_nil, fun _ => List.not_mem_nil⟩) hstart hagain h
  exact ⟨hsame.active, hsame.out⟩

/-! ## Modifications -/

/-- What the requests for an order have made of its side, and whether one of them has ended it. -/
structure Asked where
  side : UInt8
  ended : Bool
deriving DecidableEq

/-- One request, for an order of the token `t` of which `executed` shares are executed. -/
def Asked.next (t : Token) (executed : ℤ) (a : Asked) (mo : OuchModifyOrderReq) : Asked :=
  if mo.token ≠ t then a
  else if !passesSideSwitch a.side mo.newSide then a
  else if (mo.reqQty.toNat : ℤ) ≤ executed then { a with ended := true }
  else { a with side := mo.newSide }

/-- The requests of `q` for the order. -/
def OuchOrder.asked (o : OuchOrder) (q : List OuchModifyOrderReq) : Asked :=
  Machine.run (Asked.next o.token o.executedQty) ⟨o.side, false⟩ q

/-- No request of `q₂` gets past the side switch of an order that a request of `q₁` has ended. -/
def EndsApart (s : OuchSession W) (q₁ q₂ : List OuchModifyOrderReq) : Prop :=
  ∀ k o, s.activeOrders.lookup k = some o → (OuchOrder.asked o q₁).ended = true →
    ∀ mo ∈ q₂, mo.token = o.token → passesSideSwitch (OuchOrder.asked o q₁).side mo.newSide = false

/-- The loop has the order `o` under its token, with what has been asked of it. -/
structure Follows (o : OuchOrder) (st : Pass W) (a : Asked) : Prop where
  keyed : Keyed st.1.activeOrders []
  active : ∃ x, st.1.activeOrders.lookup o.token.str = some x ∧ x.side = a.side ∧
    x.executedQty = o.executedQty
  done : o.token.str ∈ st.2 ↔ a.ended = true

/-- The audit of one order follows every modification. -/
theorem follows_modifyStep {o : OuchOrder} {st : Pass W} {a : Asked} (h : Follows o st a)
    (mo : OuchModifyOrderReq) :
    Follows o (modifyStep E st mo) (Asked.next o.token o.executedQty a mo) := by
  obtain ⟨x, hx, hside, hexe⟩ := h.active
  by_cases hne : mo.token ≠ o.token
  · -- a request for another order
    have halone := leavesAlone_modifyStep E h.keyed hne
    unfold Asked.next
    rw [if_pos hne]
    exact ⟨keyed_modifyStep E h.keyed mo, ⟨x, halone.active.trans hx, hside, hexe⟩,
      halone.done.trans h.done⟩
  have htoken : mo.token = o.token := not_not.mp hne
  have hx' : st.1.activeOrders.lookup mo.token.str = some x := htoken ▸ hx
  unfold Asked.next
  rw [if_neg hne, ← hside, ← hexe]
  rcases modifyStep_cases E st mo with ⟨hskip, hs⟩ | ⟨y, hy, hpass, hcase⟩
  · -- the switch of sides is not allowed
    have hfails : passesSideSwitch x.side mo.newSide = false :=
      Bool.eq_false_iff.mpr fun hpass => hskip ⟨x, hx', hpass⟩
    rw [hfails, hs]
    exact h
  cases hx'.symm.trans hy
  rw [hpass, Bool.not_true]
  rcases hcase with ⟨hle, w, m, -, hs⟩ | ⟨hlt, w, m, -, hs⟩
  · -- the modification ends the order
    rw [if_neg Bool.false_ne_true, if_pos hle, hs]
    refine ⟨h.keyed, ⟨x, hx, rfl, hexe⟩, iff_of_true ?_ rfl⟩
    have hkey : x.token.str = o.token.str := (h.keyed _ x hx).resolve_right List.not_mem_nil
    exact List.mem_append_right _ (List.mem_singleton.mpr hkey.symm)
  · -- the modification changes the order
    rw [if_neg Bool.false_ne_true, if_neg (Int.not_le.mpr hlt), hs]
    refine ⟨h.keyed.update hx' rfl, ⟨{ x with
      side := mo.newSide
      remainingQty := (mo.reqQty.toNat : ℤ) - x.executedQty }, ?_, rfl, hexe⟩, h.done⟩
    rw [htoken]
    exact AList.lookup_insert _

/-- The order after the first batch, up to the erasure. -/
theorem follows_run {s : OuchSession W} (hk : Keyed s.activeOrders []) {o : OuchOrder}
    (ho : s.activeOrders.lookup o.token.str = some o) (q : List OuchModifyOrderReq) :
    Follows o (Machine.run (modifyStep E) (s, []) q) (OuchOrder.asked o q) :=
  run_related (C := fun _ _ => True) (R := Follows o)
    (fun _ _ mo h _ => follows_modifyStep E h mo)
    ⟨hk, ⟨o, ho, rfl, rfl⟩, iff_of_false List.not_mem_nil Bool.false_ne_true⟩
    (along_of_forall fun _ _ => trivial)

/-- A modification brings no key into the book. -/
theorem modifyStep_absent {st : Pass W} {k : Key} (h : k ∉ st.1.activeOrders) (mo : OuchModifyOrderReq) :
    k ∉ (modifyStep E st mo).1.activeOrders := by
  rcases modifyStep_cases E st mo with ⟨-, hs⟩ | ⟨o, ho, -, ⟨-, w, m, -, hs⟩ | ⟨-, w, m, -, hs⟩⟩
  · rw [hs]
    exact h
  · rw [hs]
    exact h
  · rw [hs]
    intro hin
    rcases (AList.mem_insert _).mp hin with rfl | hin
    · exact h (KeyedMap.mem_of_lookup ho)
    · exact h hin

/-- The requests of `q₂` that get past the side switch of an ended order, by the loop over `q₁`. -/
theorem endsApart_iff {s : OuchSession W} (hk : Keyed s.activeOrders [])
    {q₁ q₂ : List OuchModifyOrderReq} :
    EndsApart s q₁ q₂ ↔ ∀ mo ∈ q₂, mo.token.str ∈ (Machine.run (modifyStep E) (s, []) q₁).2 →
      ¬ Applies (Machine.run (modifyStep E) (s, []) q₁) mo := by
  constructor
  · rintro h mo hmo hdone ⟨x, hx, hpass⟩
    have hmem : mo.token.str ∈ s.activeOrders := by
      by_contra hout
      exact run_invariant (I := fun st : Pass W => mo.token.str ∉ st.1.activeOrders)
        (fun _ mo' h => modifyStep_absent E h mo') (s := (s, [])) hout q₁ (KeyedMap.mem_of_lookup hx)
    obtain ⟨o, ho⟩ := KeyedMap.mem_iff_lookup.mp hmem
    have htoken : o.token = mo.token := TokenOf.str_inj.mp ((hk _ o ho).resolve_right List.not_mem_nil)
    rw [← htoken] at ho hdone hx
    have hfollows := follows_run E hk ho q₁
    obtain ⟨y, hy, hside, -⟩ := hfollows.active
    cases hx.symm.trans hy
    have hfails := h _ o ho (hfollows.done.mp hdone) mo hmo htoken.symm
    rw [← hside, hpass] at hfails
    exact Bool.noConfusion hfails
  · intro h k o ho hended mo hmo htoken
    have hkey : o.token.str = k := (hk k o ho).resolve_right List.not_mem_nil
    rw [← hkey] at ho
    have hfollows := follows_run E hk ho q₁
    obtain ⟨x, hx, hside, -⟩ := hfollows.active
    have hskip := h mo hmo (htoken ▸ hfollows.done.mpr hended)
    rw [← hside]
    exact Bool.eq_false_iff.mpr fun hpass => hskip ⟨x, htoken ▸ hx, hpass⟩

/-- Whether a modification applies depends on the order that it names. -/
theorem applies_congr {st₀ : Pass W} {mo : OuchModifyOrderReq}
    (h : st.1.activeOrders.lookup mo.token.str = st₀.1.activeOrders.lookup mo.token.str) :
    Applies st mo ↔ Applies st₀ mo := by
  unfold Applies
  rw [h]

/-- Only a request that applies to a collected order changes one. -/
theorem lookup_modifyStep_of_not {mo : OuchModifyOrderReq} (h : mo.token.str ∈ d → ¬ Applies st mo)
    {k : Key} (hk : k ∈ d) :
    (modifyStep E st mo).1.activeOrders.lookup k = st.1.activeOrders.lookup k := by
  rcases modifyStep_cases E st mo with ⟨-, hs⟩ | ⟨o, ho, hpass, ⟨-, w, m, -, hs⟩ | ⟨-, w, m, -, hs⟩⟩
  · rw [hs]
  · rw [hs]
    rfl
  · have hne : k ≠ mo.token.str := by
      rintro rfl
      exact h hk ⟨o, ho, hpass⟩
    rw [hs]
    exact AList.lookup_insert_ne hne

/-- A request that applies to a collected order is reported by the loop that still finds the order. Any
other is reported by both or by neither. -/
theorem behind_modifyStep (h : Behind d st st') (mo : OuchModifyOrderReq) :
    Behind d (modifyStep E st mo) (modifyStep E st' mo) ∧
      ((mo.token.str ∈ d ∧ Applies st mo) ∧
          (modifyStep E st mo).1.pendingOutMessages.length = st.1.pendingOutMessages.length + 1 ∧
          (modifyStep E st' mo).1.pendingOutMessages.length = st'.1.pendingOutMessages.length ∨
        (mo.token.str ∈ d → ¬ Applies st mo) ∧ ∃ n,
          (modifyStep E st mo).1.pendingOutMessages.length = st.1.pendingOutMessages.length + n ∧
          (modifyStep E st' mo).1.pendingOutMessages.length = st'.1.pendingOutMessages.length + n) := by
  by_cases hk : mo.token.str ∈ d
  · -- the second run has no order there any more
    have hskip' : modifyStep E st' mo = st' := by
      unfold modifyStep
      rw [h.gone _ hk]
    rw [hskip']
    rcases modifyStep_cases E st mo with ⟨hnot, hs⟩ | ⟨o, ho, hpass, ⟨-, w, m, -, hs⟩ | ⟨-, w, m, -, hs⟩⟩
    · rw [hs]
      exact ⟨h, .inr ⟨fun _ => hnot, 0, rfl, rfl⟩⟩
    · rw [hs]
      exact ⟨⟨h.active, h.gone⟩, .inl ⟨⟨hk, o, ho, hpass⟩, List.length_append, rfl⟩⟩
    · rw [hs]
      refine ⟨⟨fun k hout => ?_, h.gone⟩, .inl ⟨⟨hk, o, ho, hpass⟩, List.length_append, rfl⟩⟩
      have hne : k ≠ mo.token.str := fun heq => hout (heq ▸ hk)
      exact (AList.lookup_insert_ne hne).trans (h.active k hout)
  · -- both runs find the same order
    have hnot : mo.token.str ∈ d → ¬ Applies st mo := fun hin => absurd hin hk
    unfold modifyStep
    rw [h.active _ hk]
    rcases st'.1.activeOrders.lookup mo.token.str with _ | o
    · exact ⟨h, .inr ⟨hnot, 0, rfl, rfl⟩⟩
    dsimp only
    split
    · exact ⟨h, .inr ⟨hnot, 0, rfl, rfl⟩⟩
    split
    · exact ⟨⟨h.active, h.gone⟩, .inr ⟨hnot, 1, List.length_append, List.length_append⟩⟩
    · have hinsert : Behind d (st.1.withActive _, st.2) (st'.1.withActive _, st'.2) := h.insert hk
        { o with side := mo.newSide, remainingQty := (mo.reqQty.toNat : ℤ) - o.executedQty }
      exact ⟨⟨hinsert.active, hinsert.gone⟩, .inr ⟨hnot, 1, List.length_append, List.length_append⟩⟩

/-- A loop that is ahead stays ahead. -/
theorem sent_run {n : ℕ} {q : List OuchModifyOrderReq} (h : Behind d st st')
    (hn : st'.1.pendingOutMessages.length + n ≤ st.1.pendingOutMessages.length) :
    (Machine.run (modifyStep E) st' q).1.pendingOutMessages.length + n ≤
      (Machine.run (modifyStep E) st q).1.pendingOutMessages.length := by
  have hall : Along (modifyStep E) (fun _ _ => True) st q :=
    along_of_forall fun _ _ => trivial
  have hrun := run_related (f := modifyStep E) (h := modifyStep E) (C := fun _ _ => True)
    (R := fun st st' : Pass W => Behind d st st' ∧
      st'.1.pendingOutMessages.length + n ≤ st.1.pendingOutMessages.length)
    (fun st st' mo hR _ => by
      obtain ⟨hbehind, hsent⟩ := behind_modifyStep E hR.1 mo
      refine ⟨hbehind, ?_⟩
      have hle := hR.2
      rcases hsent with ⟨-, h1, h2⟩ | ⟨-, n', h1, h2⟩ <;> omega) ⟨h, hn⟩ hall
  exact hrun.2

/-- If the first loop sends no more than the second, no request has applied to a collected order. -/
theorem unapplied_of_sent {st₀ : Pass W} {q : List OuchModifyOrderReq} (h : Behind d st st')
    (hsame : ∀ k ∈ d, st.1.activeOrders.lookup k = st₀.1.activeOrders.lookup k)
    (hle : st'.1.pendingOutMessages.length ≤ st.1.pendingOutMessages.length)
    (hend : (Machine.run (modifyStep E) st q).1.pendingOutMessages.length ≤
      (Machine.run (modifyStep E) st' q).1.pendingOutMessages.length) :
    ∀ mo ∈ q, mo.token.str ∈ d → ¬ Applies st₀ mo := by
  induction q generalizing st st' with
  | nil => exact List.forall_mem_nil _
  | cons mo q ih =>
    rw [run_cons, run_cons] at hend
    obtain ⟨hbehind, ⟨-, h1, h2⟩ | ⟨hnot, n, h1, h2⟩⟩ := behind_modifyStep E h mo
    · have hahead := sent_run E (n := 1) (q := q) hbehind (by omega)
      omega
    · have hrest := ih hbehind
        (fun k hk => (lookup_modifyStep_of_not E hnot hk).trans (hsame k hk)) (by omega) hend
      intro mo' hmo'
      rcases List.mem_cons.mp hmo' with rfl | hmo'
      · exact fun hk happ => hnot hk ((applies_congr (hsame _ hk)).mpr happ)
      · exact hrest mo' hmo'

/-- Collected orders to which no request applies stay as they are to the end of the loop. -/
theorem along_of_unapplied {st₀ : Pass W} {q : List OuchModifyOrderReq}
    (h : ∀ mo ∈ q, mo.token.str ∈ st₀.2 → ¬ Applies st₀ mo) :
    Along (modifyStep E) (fun st mo => mo.token.str ∈ st₀.2 → ¬ Applies st mo) st₀ q := by
  have hskips : ∀ (st : Pass W) (mo : OuchModifyOrderReq),
      (∀ k ∈ st₀.2, st.1.activeOrders.lookup k = st₀.1.activeOrders.lookup k) →
      (mo.token.str ∈ st₀.2 → ¬ Applies st₀ mo) → mo.token.str ∈ st₀.2 → ¬ Applies st mo :=
    fun st mo hst hmo hin happ => hmo hin ((applies_congr (hst _ hin)).mp happ)
  refine Along.of_invariant (I := fun st : Pass W => ∀ k ∈ st₀.2,
      st.1.activeOrders.lookup k = st₀.1.activeOrders.lookup k)
    (C := fun _ mo => mo.token.str ∈ st₀.2 → ¬ Applies st₀ mo) ?_ hskips (fun _ _ => rfl)
    (along_of_forall h)
  intro st mo hst hmo k hk
  exact (lookup_modifyStep_of_not E (hskips st mo hst hmo) hk).trans (hst k hk)

/-- **Modifications in one batch or in two** come to the same exactly when no request of the second part
gets past the side switch of an order that the first has ended. -/
theorem sameBook_modifyBatch_iff {s : OuchSession W} (hk : Keyed s.activeOrders [])
    {q₁ q₂ : List OuchModifyOrderReq} :
    SameBook (modifyBatch E s (q₁ ++ q₂)) (modifyBatch E (modifyBatch E s q₁) q₂) ↔
      EndsApart s q₁ q₂ := by
  have hstart : SameButQueues { s with pendingModify := q₁ ++ q₂ } { s with pendingModify := q₁ } :=
    ⟨rfl, rfl, rfl, rfl⟩
  have hagain : SameButQueues
      (finishPass (Machine.run (modifyStep E) ({ s with pendingModify := q₁ }, []) q₁))
      { modifyBatch E s q₁ with pendingModify := q₂ } := ⟨rfl, rfl, rfl, rfl⟩
  have hapart : EndsApart s q₁ q₂ ↔ _ := endsApart_iff E (s := { s with pendingModify := q₁ ++ q₂ }) hk
  rw [hapart]
  constructor
  · intro h
    have hall : Along (modifyStep E) (fun _ _ => True) ({ s with pendingModify := q₁ ++ q₂ }, []) q₁ :=
      along_of_forall fun _ _ => trivial
    have hfirst := run_related (f := modifyStep E) (h := modifyStep E) (R := Alike [])
      (C := fun _ _ => True)
      (fun _ _ _ h _ => alike_modifyStep E h fun hin => absurd hin List.not_mem_nil) hstart.alike hall
    have hsecond := hfirst.erased.of_sameButQueues hagain
    refine unapplied_of_sent E hsecond.toBehind (fun _ _ => rfl)
      (congrArg List.length hsecond.out).symm.le ?_
    rw [← run_append]
    exact (congrArg List.length h.out).le
  · intro h
    have hsame := sameBook_of_along (f := modifyStep E)
      (C := fun d st mo => mo.token.str ∈ d → ¬ Applies st mo)
      (fun _ _ _ _ h hC => alike_modifyStep E h hC) (fun _ _ hin => absurd hin List.not_mem_nil)
      hstart hagain (along_of_unapplied E h)
    exact ⟨hsame.active, hsame.out⟩

/-! ## Batches in reachable sessions -/

/-- **A batch in two parts.** For modifications the condition is exact. Replacements come to the same if
the second part leaves alone what the first has collected. -/
theorem sameBook_batches (w : W) (es : List Event) :
    (∀ q₁ q₂, SameBook (modifyBatch E (run E w es) (q₁ ++ q₂))
        (modifyBatch E (modifyBatch E (run E w es) q₁) q₂) ↔ EndsApart (run E w es) q₁ q₂) ∧
      ∀ q₁ q₂, SparesCollected E (run E w es) q₁ q₂ →
        SameBook (replaceBatch E (run E w es) (q₁ ++ q₂))
          (replaceBatch E (replaceBatch E (run E w es) q₁) q₂) :=
  ⟨fun _ _ => sameBook_modifyBatch_iff E (keyed_run E w es), fun _ _ h => sameBook_replaceBatch E h⟩

/-- A replacement that asks for `qty` shares. -/
def replaceReq (c d : Char) (qty : UInt32) : OuchReplaceOrderReq :=
  { existingToken := tokenOf c, newToken := tokenOf d, qty := qty, price := 1, timeInForce := 99998
    display := 89, intermarketSweepEligibility := 78, minQty := 0 }

/-- The first part ends the order of `a`; the second moves that of `b`. -/
theorem sameBook_batches_of_two :
    SameBook
      (replaceBatch quietEnv (run quietEnv () threeOrders)
        ([replaceReq 'a' 'd' 0] ++ [replaceReq 'b' 'e' 100]))
      (replaceBatch quietEnv (replaceBatch quietEnv (run quietEnv () threeOrders)
        [replaceReq 'a' 'd' 0]) [replaceReq 'b' 'e' 100]) :=
  (sameBook_batches quietEnv () threeOrders).2 _ _ (by decide +kernel)

/-- An order that is modified down to nothing twice is reported twice by one batch, once by two. -/
theorem not_sameBook_twice :
    ¬ ∀ (W : Type) (E : Env W) (w : W) (es : List Event),
      (∀ q₁ q₂, SameBook (modifyBatch E (run E w es) (q₁ ++ q₂))
        (modifyBatch E (modifyBatch E (run E w es) q₁) q₂)) ∧
      ∀ q₁ q₂, SameBook (replaceBatch E (run E w es) (q₁ ++ q₂))
        (replaceBatch E (replaceBatch E (run E w es) q₁) q₂) := by
  intro h
  have hout := ((h Unit quietEnv () threeOrders).1 [modifyOfB] [modifyOfB]).out
  have hone : (modifyBatch quietEnv (run quietEnv () threeOrders)
      ([modifyOfB] ++ [modifyOfB])).pendingOutMessages.length = 6 := by
    decide +kernel
  have htwo : (modifyBatch quietEnv (modifyBatch quietEnv (run quietEnv () threeOrders) [modifyOfB])
      [modifyOfB]).pendingOutMessages.length = 5 := by
    decide +kernel
  rw [hout, htwo] at hone
  exact absurd hone (by decide)

end OuchSession

end Evtsim
