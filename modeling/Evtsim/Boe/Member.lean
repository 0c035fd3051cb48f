import Evtsim.Boe.Filling
import Evtsim.Boe.Login
import Evtsim.Lib.Renaming

/-!
# The book of a BOE member

A member who keeps a book of its own from its requests and from the messages that it is sent: what is left
of each order. `member_knows` says that this is the book of the session, if the member uses new tokens for
new orders and modifications, cancels and modifies active orders only, and asks for a million shares at
most.
-/

namespace Evtsim

open Wire Boe Log Session

namespace BoeSession

variable {W : Type} (E : Env W)

/-! ## The member -/

/-- The old token of each modification that has been asked for, by the new one, and what is left of each
order. -/
structure Member where
  asked : KeyedMap Key Key
  orders : KeyedMap Key UInt32

namespace Member

def new : Member := { asked := ∅, orders := ∅ }

/-- A quantity that is left, if it is one. -/
def left (n : UInt32) : Option UInt32 := if n = 0 then none else some n

/-- The member sends a packet. -/
def ask (v : Member) : Event → Member
  | .packet p =>
    match request p with
    | some (.modify mo) => { v with asked := v.asked.insert mo.token.str mo.origToken.str }
    | _ => v
  | _ => v

/-- The member is told `leaves_qty` of an order. -/
def tell (v : Member) (t : Token) (leavesQty : UInt32) : Member :=
  { v with orders := KeyedMap.assign t.str (left leavesQty) v.orders }

/-- The order of a modification is no longer under its old token. -/
def drop (v : Member) (t : Token) : Member :=
  match v.asked.lookup t.str with
  | some orig => { v with orders := v.orders.erase orig }
  | none => v

/-- The member is sent a message. -/
def hear (v : Member) : Boe.OutMsg → Member
  | .orderAck m => v.tell m.token m.leavesQty
  | .orderExecution m => v.tell m.token m.leavesQty
  | .orderModified m => (v.drop m.token).tell m.token m.leavesQty
  | .orderCanceled m => v.tell m.token 0
  | _ => v

end Member

/-- The session and the member. -/
def observe (x : BoeSession W × Member) (e : Event) : BoeSession W × Member :=
  (step E x.1 e, (sent E x.1 e).foldl Member.hear (x.2.ask e))

/-- The member does not touch the session. -/
theorem run_observe (x : BoeSession W × Member) (es : List Event) :
    (Machine.run (observe E) x es).1 = Machine.run (step E) x.1 es := by
  have h := Machine.run_reading (f := observe E) (g := Prod.fst) (r := id) (k := step E)
    (fun _ _ => rfl) x es
  rwa [List.map_id] at h

/-! ## What is asked of the member -/

/-- The tokens of the modifications that have been queued. -/
def renames (s : BoeSession W) : List (Key × Key) :=
  s.pendingModify.map fun mo => (mo.origToken.str, mo.token.str)

/-- A new order has a token that is new to the modifications, unless it is a duplicate; a cancel and a
modification name an active order, and a modification gives it a token that is new; and no quantity is
above a million. -/
def ProperRequest (s : BoeSession W) : Request → Prop
  | .enter no => no.token.str ∉ s.activeOrders →
      Renaming.Unheard (renames s) no.token.str ∧ no.qty.toNat ≤ 1000000
  | .cancel co => co.origToken.str ∈ s.activeOrders
  | .modify mo => mo.origToken.str ∈ s.activeOrders ∧ mo.token.str ∉ s.activeOrders ∧
      Renaming.Unheard (renames s) mo.token.str ∧ mo.qty.toNat ≤ 1000000
  | _ => True

instance (s : BoeSession W) : ∀ r, Decidable (ProperRequest s r)
  | .enter _ => inferInstanceAs (Decidable (_ → _ ∧ _))
  | .cancel _ => inferInstanceAs (Decidable (_ ∈ _))
  | .modify _ => inferInstanceAs (Decidable (_ ∧ _ ∧ _ ∧ _))
  | .login _ => isTrue trivial
  | .heartbeat => isTrue trivial

/-- A packet asks for nothing improper. -/
def Proper (s : BoeSession W) : Event → Prop
  | .packet p => ∀ r ∈ request p, ProperRequest s r
  | _ => True

instance (s : BoeSession W) : ∀ e, Decidable (Proper s e)
  | .packet p => inferInstanceAs (Decidable (∀ r ∈ request p, ProperRequest s r))
  | .marketLogic => isTrue trivial
  | .cancelAll => isTrue trivial
  | .disconnect => isTrue trivial

/-! ## What the member knows -/

/-- What is left of an order, as a message tells it. -/
def outstanding (o : BoeOrder) : Option UInt32 := Member.left (UInt32.ofInt o.remainingQty)

/-- An order in the book. -/
structure Kept (k : Key) (o : BoeOrder) : Prop where
  token : o.token.str = k
  remaining : 0 ≤ o.remainingQty ∧ o.remainingQty ≤ 1000000
  executed : 0 ≤ o.executedQty

/-- What is outstanding is what remains. -/
theorem Kept.outstanding_eq_some {k : Key} {o : BoeOrder} (h : Kept k o) {n : UInt32} :
    outstanding o = some n ↔ 0 < o.remainingQty ∧ o.remainingQty = n.toNat := by
  obtain ⟨hnonneg, hle⟩ := h.remaining
  have hqty := toNat_ofInt hnonneg (by omega)
  rw [outstanding, Member.left, Option.ite_none_left_eq_some, Option.some.injEq]
  constructor
  · rintro ⟨hne, rfl⟩
    have hpos : (UInt32.ofInt o.remainingQty).toNat ≠ 0 := fun h => hne (UInt32.toNat_inj.mp h)
    omega
  · rintro ⟨hpos, heq⟩
    have hn : UInt32.ofInt o.remainingQty = n := UInt32.toNat_inj.mp (by omega)
    refine ⟨fun hzero => ?_, hn⟩
    have hzero' : (UInt32.ofInt o.remainingQty).toNat = 0 := congrArg UInt32.toNat hzero
    omega

/-- Nothing is outstanding exactly if the order is not active. -/
theorem Kept.outstanding_eq_none {k : Key} {o : BoeOrder} (h : Kept k o) :
    outstanding o = none ↔ o.stillActive = false := by
  rw [← Bool.not_eq_true, BoeOrder.stillActive_iff, Option.eq_none_iff_forall_ne_some]
  constructor
  · intro hnone hactive
    have hqty := toNat_ofInt h.remaining.1 (by have := h.remaining.2; omega)
    exact hnone _ (h.outstanding_eq_some.mpr ⟨hactive.1, hqty.symm⟩)
  · intro hinactive n hn
    exact hinactive ⟨(h.outstanding_eq_some.mp hn).1, h.remaining.2⟩

/-- The member's book is that of the session, and the modifications can be carried out as they have been
asked for. -/
structure Knows (s : BoeSession W) (v : Member) : Prop where
  kept : ∀ k o, s.activeOrders.lookup k = some o → Kept k o
  orders : ∀ k, v.orders.lookup k = (s.activeOrders.lookup k).bind outstanding
  renames : Renaming.Sound (renames s) {k | k ∈ s.activeOrders}
  asked : ∀ mo ∈ s.pendingModify, v.asked.lookup mo.token.str = some mo.origToken.str
  qty : ∀ mo ∈ s.pendingModify, mo.qty.toNat ≤ 1000000

variable {s s' : BoeSession W} {v : Member}

/-- What the member knows is about the book and the pending modifications. -/
theorem Knows.congr (h : Knows s v) (hact : s'.activeOrders = s.activeOrders)
    (hmod : s'.pendingModify = s.pendingModify) : Knows s' v := by
  obtain ⟨hkept, horders, hrenames, hasked, hqty⟩ := h
  unfold BoeSession.renames at hrenames
  rw [← hact] at hkept horders hrenames
  rw [← hmod] at hrenames hasked hqty
  exact ⟨hkept, horders, hrenames, hasked, hqty⟩

/-- Nothing is left of what goes, or the member is told. -/
theorem Knows.remove (h : Knows s v) {v' : Member} {P : Key → Prop} [DecidablePred P]
    (hact : ∀ k, s'.activeOrders.lookup k = if P k then none else s.activeOrders.lookup k)
    (hmod : s'.pendingModify = s.pendingModify) (hasked : v'.asked = v.asked)
    (hv : ∀ k, v'.orders.lookup k = if P k then none else v.orders.lookup k) : Knows s' v' := by
  have hheld : ∀ {k o}, s'.activeOrders.lookup k = some o → s.activeOrders.lookup k = some o := by
    intro k o ho
    rw [hact] at ho
    by_cases hk : P k
    · rw [if_pos hk] at ho
      cases ho
    · rwa [if_neg hk] at ho
  refine ⟨fun k o ho => h.kept k o (hheld ho), fun k => ?_, ?_, ?_, ?_⟩
  · rw [hv, hact]
    by_cases hk : P k
    · rw [if_pos hk, if_pos hk]
      rfl
    · rw [if_neg hk, if_neg hk, h.orders]
  · unfold BoeSession.renames
    rw [hmod]
    refine h.renames.subset fun k hk => ?_
    obtain ⟨o, ho⟩ := KeyedMap.mem_iff_lookup.mp hk
    exact KeyedMap.mem_of_lookup (hheld ho)
  · rw [hmod, hasked]
    exact h.asked
  · rw [hmod]
    exact h.qty

/-! ## What it is told -/

/-- What is told of no order is not taken in. -/
theorem Member.hear_of_not_sequenced {m : Boe.OutMsg} (hm : isSequenced m = false) (v : Member) :
    v.hear m = v := by
  cases m with
  | orderAck m => cases hm
  | orderExecution m => cases hm
  | orderModified m => cases hm
  | orderCanceled m => cases hm
  | _ => rfl

/-- From one state of the session to another the member is told what it needs to know. -/
abbrev Tells (s s' : BoeSession W) (v : Member) : Prop :=
  Told Member.hear (Knows s') s.pendingOutMessages s'.pendingOutMessages v

/-- Steps that concern no order tell the member nothing. -/
theorem Knows.idle (h : Knows s v) (hidle : Idle s s') : Tells s s' v :=
  Appends.told hidle.out (fun _ hm v => Member.hear_of_not_sequenced hm v)
    (h.congr hidle.activeOrders hidle.pendingModify)

/-- A message about one order leaves the others as they are known. -/
theorem Member.lookup_tell (v : Member) (t : Token) (n : UInt32) (k : Key) :
    (v.tell t n).orders.lookup k = if k = t.str then left n else v.orders.lookup k :=
  KeyedMap.lookup_assign k t.str (left n) v.orders

/-- An order that is told to be gone is gone. -/
theorem Knows.canceled (h : Knows s v) {t : Token}
    (hact : ∀ k, s'.activeOrders.lookup k = if k = t.str then none else s.activeOrders.lookup k)
    (hmod : s'.pendingModify = s.pendingModify) : Knows s' (v.tell t 0) :=
  h.remove hact hmod rfl (v.lookup_tell t 0)

/-- Every cancel of a pass is told when its turn comes, and the order goes at the end. -/
theorem tells_cancelLogic (h : Knows s v) : Tells s (cancelLogic E s) v := by
  refine (told_run (f := cancelStep E) (g := fun st => st.1.pendingOutMessages)
    (I := fun st v => Knows (finishPass st) v) s.pendingCancel (fun st v hst co _ => ?_)
    (s := (s, [])) h).imp fun v' hv' => hv'.congr rfl rfl
  rcases cancelStep_cases E st co with ⟨-, w, m, hs⟩ | ⟨-, w, m, hm, hs⟩ <;> rw [hs]
  · exact told_singleton (hst.congr rfl rfl)
  · apply told_singleton
    show Knows _ (v.tell m.token 0)
    rw [hm]
    refine hst.canceled (fun k => ?_) rfl
    have hcollected : ∀ k, k ≠ co.token.str → (k ∈ st.2 ++ [co.token.str] ↔ k ∈ st.2) :=
      fun k hk => KeyedMap.mem_append_of_ne hk.symm
    by_cases hk : k = co.token.str
    · rw [if_pos hk]
      exact lookup_finishPass_of_mem (List.mem_append_right _ (List.mem_singleton.mpr hk))
    rw [if_neg hk]
    by_cases hdone : k ∈ st.2
    · rw [lookup_finishPass_of_mem hdone]
      exact lookup_finishPass_of_mem ((hcollected k hk).mpr hdone)
    · rw [lookup_finishPass_of_notMem hdone]
      exact lookup_finishPass_of_notMem fun h => hdone ((hcollected k hk).mp h)

/-! ## Modifications -/

/-- The order that a modification makes of one in the book can be kept under the new token. -/
theorem Kept.modified {k : Key} {o : BoeOrder} (h : Kept k o) {mo : BoeModifyOrderReq}
    (hqty : mo.qty.toNat ≤ 1000000) : Kept mo.token.str (modified o mo) := by
  refine ⟨rfl, ?_, h.executed⟩
  have hexecuted := h.executed
  have hremaining : (BoeSession.modified o mo).remainingQty =
      if (mo.qty.toNat : ℤ) ≤ o.executedQty then 0 else (mo.qty.toNat : ℤ) - o.executedQty := rfl
  rw [hremaining]
  split
  · exact ⟨Int.le_refl 0, by decide⟩
  · omega

/-- A modification that finds its order moves it where the member looks for it. -/
theorem Knows.modify (h : Knows s v) {mo : BoeModifyOrderReq} (hmo : mo ∈ s.pendingModify)
    {o : BoeOrder} (ho : s.activeOrders.lookup mo.origToken.str = some o) {m : OrderModified}
    (hm : Describes m (modified o mo))
    (hact : ∀ k, s'.activeOrders.lookup k =
      if k = mo.token.str then some (modified o mo)
      else if k = mo.origToken.str then none else s.activeOrders.lookup k)
    (hmod : s'.pendingModify = s.pendingModify) : Knows s' (v.hear (.orderModified m)) := by
  have hrequest : (mo.origToken.str, mo.token.str) ∈ BoeSession.renames s :=
    List.mem_map_of_mem hmo
  have hold : mo.origToken.str ∈ s.activeOrders := KeyedMap.mem_of_lookup ho
  have hrenamed := h.renames.rename hrequest hold
  have hdrop : v.drop m.token = { v with orders := v.orders.erase mo.origToken.str } := by
    unfold Member.drop
    have hasked := h.asked mo hmo
    rw [hm.token]
    show (match v.asked.lookup mo.token.str with | some orig => _ | none => _) = _
    rw [hasked]
  refine ⟨fun k o' ho' => ?_, fun k => ?_, ?_, ?_, ?_⟩
  · -- the moved order is kept, and the others were
    rw [hact] at ho'
    split at ho'
    · rename_i hk
      obtain rfl := Option.some.inj ho'
      rw [hk]
      exact (h.kept _ o ho).modified (h.qty mo hmo)
    split at ho'
    · cases ho'
    · exact h.kept k o' ho'
  · -- the member drops the old token, hears of the new one, and keeps the rest
    show ((v.drop m.token).tell m.token m.leavesQty).orders.lookup k = _
    rw [Member.lookup_tell, hdrop, hact, hm.token, hm.leavesQty]
    show (if k = mo.token.str then _ else _) = _
    by_cases hk : k = mo.token.str
    · rw [if_pos hk, if_pos hk]
      rfl
    rw [if_neg hk, if_neg hk]
    show (v.orders.erase mo.origToken.str).lookup k = _
    rw [KeyedMap.lookup_erase]
    by_cases hk' : k = mo.origToken.str
    · rw [if_pos hk', if_pos hk']
      rfl
    · rw [if_neg hk', if_neg hk', h.orders]
  · -- the names given are still sound for the keys that are left
    unfold BoeSession.renames at hrenamed ⊢
    rw [hmod]
    refine hrenamed.subset fun k hk => ?_
    obtain ⟨o', ho'⟩ := KeyedMap.mem_iff_lookup.mp hk
    rw [hact] at ho'
    by_cases hnew : k = mo.token.str
    · exact .inl hnew
    · rw [if_neg hnew] at ho'
      by_cases hgone : k = mo.origToken.str
      · rw [if_pos hgone] at ho'
        cases ho'
      · rw [if_neg hgone] at ho'
        exact .inr ⟨KeyedMap.mem_of_lookup ho', hgone⟩
  · rw [hmod]
    show ∀ mo ∈ _, ((v.drop m.token).tell m.token m.leavesQty).asked.lookup _ = _
    rw [hdrop]
    exact h.asked
  · rw [hmod]
    exact h.qty

/-- What is collected in a pass of modifications are old tokens that have been given up. -/
structure Modifying (requests : List BoeModifyOrderReq) (st : Pass W) (v : Member) : Prop where
  knows : Knows st.1 v
  queue : st.1.pendingModify = requests
  done : ∀ k ∈ st.2, k ∉ st.1.activeOrders ∧ ∃ mo ∈ requests, k = mo.origToken.str

/-- A modification tells the member what it does. -/
theorem tells_modifyStep {requests : List BoeModifyOrderReq} {st : Pass W}
    (h : Modifying requests st v) {mo : BoeModifyOrderReq} (hmo : mo ∈ requests) :
    Told Member.hear (Modifying requests (modifyStep E st mo)) st.1.pendingOutMessages
      (modifyStep E st mo).1.pendingOutMessages v := by
  rcases modifyStep_cases E st mo with ⟨-, hs⟩ | ⟨o, ho, w, A, bo, m, hm, hbo, hact, hs⟩ <;> rw [hs]
  · exact Told.of_eq rfl h
  have hqueued : mo ∈ st.1.pendingModify := by rwa [h.queue]
  obtain ⟨hfree, hother⟩ := h.knows.renames.free (List.mem_map_of_mem hqueued)
    (KeyedMap.mem_of_lookup ho)
  have hne : mo.token.str ≠ mo.origToken.str := by
    intro heq
    apply hfree
    show mo.token.str ∈ st.1.activeOrders
    rw [heq]
    exact KeyedMap.mem_of_lookup ho
  obtain rfl : bo = modified o mo := by
    rcases hbo with ⟨-, hbo⟩ | ⟨heq, -⟩
    · exact hbo
    · exact absurd heq hne
  apply told_singleton
  refine ⟨h.knows.modify hqueued ho hm hact rfl, h.queue, fun k hk => ?_⟩
  -- an old token stays given up, and is not the new token of the request
  have hgone : ∀ k, (k = mo.origToken.str ∨ k ∉ st.1.activeOrders) → k ≠ mo.token.str →
      k ∉ ((st.1.withActive A).emit w (.orderModified m)).activeOrders := by
    intro k hk hnew
    rw [← KeyedMap.lookup_eq_none]
    show A.lookup k = none
    rw [hact, if_neg hnew]
    by_cases hold : k = mo.origToken.str
    · exact if_pos hold
    · rw [if_neg hold]
      exact KeyedMap.lookup_eq_none.mpr (hk.resolve_left hold)
  have hcollected : k ∈ st.2 ∨ k = mo.origToken.str := by
    split at hk
    · rcases List.mem_append.mp hk with hk | hk
      · exact .inl hk
      · exact .inr ((List.mem_singleton.mp hk).trans (h.knows.kept _ o ho).token)
    · exact .inl hk
  rcases hcollected with hk | rfl
  · obtain ⟨hkgone, mo', hmo', rfl⟩ := h.done k hk
    refine ⟨hgone _ (.inr hkgone) (hother _ (List.mem_map_of_mem (h.queue ▸ hmo'))), mo', hmo', rfl⟩
  · exact ⟨hgone _ (.inl rfl) hne.symm, mo, hmo, rfl⟩

/-- A modify pass tells the member what it does. -/
theorem tells_modifyLogic (h : Knows s v) : Tells s (modifyLogic E s) v := by
  have hstart : Modifying s.pendingModify (s, []) v := ⟨h, rfl, List.forall_mem_nil _⟩
  refine (told_run (f := modifyStep E) (g := fun st => st.1.pendingOutMessages)
    (I := Modifying s.pendingModify) s.pendingModify
    (fun st v hst mo hmo => tells_modifyStep E hst hmo) hstart).imp fun v' hend => ?_
  refine hend.knows.remove (P := fun _ => False) (fun k => ?_) rfl rfl fun k => (if_neg id).symm
  rw [if_neg id]
  by_cases hk : k ∈ (Machine.run (modifyStep E) (s, []) s.pendingModify).2
  · have hgone := KeyedMap.lookup_eq_none.mpr (hend.done k hk).1
    exact (lookup_finishPass_of_mem hk).trans hgone.symm
  · exact lookup_finishPass_of_notMem hk

/-! ## Executions -/

/-- What is collected in an execution pass is not outstanding. -/
structure Executing (st : Pass W) (v : Member) : Prop where
  knows : Knows st.1 v
  done : ∀ k ∈ st.2, ∀ o, st.1.activeOrders.lookup k = some o → outstanding o = none

/-- An order that is filled, and the member told of it. -/
theorem Knows.fill (h : Knows s v) {k : Key} {o : BoeOrder} (ho : s.activeOrders.lookup k = some o)
    {exe : ℤ} (hpos : 0 < exe) (hle : exe ≤ o.remainingQty) {m : OrderExecution}
    (hm : ReportsFill m o exe)
    (hact : s'.activeOrders = s.activeOrders.insert k
      { o with remainingQty := o.remainingQty - exe, executedQty := o.executedQty + exe })
    (hmod : s'.pendingModify = s.pendingModify) : Knows s' (v.hear (.orderExecution m)) := by
  have hkept := h.kept k o ho
  have hmem : ∀ k', k' ∈ s'.activeOrders ↔ k' ∈ s.activeOrders := by
    intro k'
    rw [hact, AList.mem_insert]
    exact or_iff_right_of_imp fun heq => heq ▸ KeyedMap.mem_of_lookup ho
  refine ⟨fun k' o' ho' => ?_, fun k' => ?_, ?_, ?_, ?_⟩
  · -- what is left of the filled order is still in bounds
    rw [hact, KeyedMap.lookup_insert] at ho'
    split at ho'
    · rename_i hk
      obtain rfl := Option.some.inj ho'
      have hremaining := hkept.remaining
      have hexecuted := hkept.executed
      refine ⟨hkept.token.trans hk.symm, ⟨?_, ?_⟩, ?_⟩
      · show 0 ≤ o.remainingQty - exe
        omega
      · show o.remainingQty - exe ≤ 1000000
        omega
      · show 0 ≤ o.executedQty + exe
        omega
    · exact h.kept k' o' ho'
  · -- the message tells what is left
    show (v.tell m.token m.leavesQty).orders.lookup k' = _
    rw [Member.lookup_tell, hm.token, hkept.token, hact, KeyedMap.lookup_insert, hm.leavesQty]
    by_cases hk : k' = k
    · rw [if_pos hk, if_pos hk]
      rfl
    · rw [if_neg hk, if_neg hk, h.orders]
  · -- a fill brings no key
    unfold BoeSession.renames
    rw [hmod]
    exact h.renames.subset fun k' hk' => (hmem k').mp hk'
  · rw [hmod]
    exact h.asked
  · rw [hmod]
    exact h.qty

/-- A visit tells the member what it does. -/
theorem tells_executionStep {st : Pass W} (h : Executing st v) (k : Key) :
    Told Member.hear (Executing (executionStep E st k)) st.1.pendingOutMessages
      (executionStep E st k).1.pendingOutMessages v := by
  rcases ho : st.1.activeOrders.lookup k with _ | o
  · have hs : executionStep E st k = st := by rw [executionStep, ho]
    rw [hs]
    exact Told.of_eq rfl h
  rcases hgate : (E.gate .execution st.1.env).1 with _ | _
  · rw [executionStep_of_closed E ho hgate]
    exact Told.of_eq rfl ⟨h.knows.congr rfl rfl, h.done⟩
  rcases hactive : o.stillActive with _ | _
  · rw [executionStep_of_inactive E ho hgate hactive]
    refine Told.of_eq rfl ⟨h.knows.congr rfl rfl, fun k' hk' o' ho' => ?_⟩
    rcases List.mem_append.mp hk' with hk' | hk'
    · exact h.done k' hk' o' ho'
    · obtain rfl := List.mem_singleton.mp hk'
      cases ho.symm.trans ho'
      exact (h.knows.kept k' o ho).outstanding_eq_none.mpr hactive
  rw [executionStep_of_active E ho hgate hactive]
  by_cases hnone : (E.executionQty (E.gate .execution st.1.env).2).1 = 0
  · rw [constructOrderExecuted, if_pos hnone]
    exact Told.of_eq rfl ⟨h.knows.congr rfl rfl, h.done⟩
  obtain ⟨exe, w, m, hpos, hle, -, hm, -, hs⟩ := constructOrderExecuted_fills E
    (st.1.inEnv (E.executionQty (E.gate .execution st.1.env).2).2) k
    (BoeOrder.stillActive_iff.mp hactive).1 hnone
  rw [hs]
  apply told_singleton
  refine ⟨h.knows.fill ho hpos hle hm rfl rfl, fun k' hk' o' ho' => ?_⟩
  -- an order that is filled has not been collected
  have hne : k' ≠ k := by
    rintro rfl
    have hdone := (h.knows.kept k' o ho).outstanding_eq_none.mp (h.done k' hk' o ho)
    cases hdone.symm.trans hactive
  apply h.done k' hk'
  rw [← ho']
  show _ = (st.1.activeOrders.insert k _).lookup k'
  rw [KeyedMap.lookup_insert, if_neg hne]

/-- At the end of the pass goes only what is not outstanding. -/
theorem Executing.finish {st : Pass W} (h : Executing st v) : Knows (finishPass st) v := by
  refine h.knows.remove (P := fun k => k ∈ st.2) (fun k => ?_) rfl rfl fun k => ?_
  · by_cases hk : k ∈ st.2
    · rw [if_pos hk, lookup_finishPass_of_mem hk]
    · rw [if_neg hk, lookup_finishPass_of_notMem hk]
  · by_cases hk : k ∈ st.2
    · rw [if_pos hk, h.knows.orders]
      exact Option.bind_eq_none_iff.mpr fun o ho => h.done k hk o ho
    · rw [if_neg hk]

/-- An execution pass tells the member what it does. -/
theorem tells_executionLogic (h : Knows s v) : Tells s (executionLogic E s) v := by
  have hstart : Executing (s.inEnv (E.visit s.activeOrders.keys s.env).2, []) v :=
    ⟨h.congr rfl rfl, List.forall_mem_nil _⟩
  exact (told_run (f := executionStep E) (g := fun st => st.1.pendingOutMessages) (I := Executing)
    (E.visit s.activeOrders.keys s.env).1.val (fun st v hst k _ => tells_executionStep E hst k)
    hstart).imp fun v' hend => hend.finish

/-! ## Cancelling everything -/

/-- Of the orders that are still to be met the member knows what is left, or that nothing is. -/
def Cancelling (A : KeyedMap Key BoeOrder) (ks : List Key) (v : Member) : Prop :=
  ∀ k, v.orders.lookup k = none ∨ k ∈ ks ∧ v.orders.lookup k = (A.lookup k).bind outstanding

/-- The orders that `cancel_all` goes through are known to be gone. -/
theorem tells_cancelAllSteps {A : KeyedMap Key BoeOrder} (hkept : ∀ k o, A.lookup k = some o → Kept k o)
    (ks : List Key) {st : BoeSession W × ℕ} (hact : st.1.activeOrders = A)
    (h : Cancelling A ks v) :
    Told Member.hear (fun v' => v'.asked = v.asked ∧ Cancelling A [] v') st.1.pendingOutMessages
      (Machine.run (cancelAllStep E) st ks).1.pendingOutMessages v := by
  induction ks generalizing st v with
  | nil => exact Told.of_eq rfl ⟨rfl, h⟩
  | cons k ks ih =>
    rw [Machine.run_cons]
    rcases cancelAllStep_cases E st k with ⟨hnone, hs⟩ | ⟨o, ho, hactive, w, m, hm, hs⟩
    · rw [hs]
      refine ih hact fun k' => ?_
      rcases h k' with hgone | ⟨hk', hleft⟩
      · exact .inl hgone
      · rcases List.mem_cons.mp hk' with rfl | hk'
        · -- the order under this key is not outstanding
          left
          rw [hleft, Option.bind_eq_none_iff]
          intro o ho
          exact (hkept k' o ho).outstanding_eq_none.mpr (hnone o (hact ▸ ho))
        · exact .inr ⟨hk', hleft⟩
    · have htoken : m.token.str = k := (congrArg TokenOf.str hm).trans (hkept k o (hact ▸ ho)).token
      have hfirst : Told Member.hear (· = v.tell m.token 0) st.1.pendingOutMessages
          (cancelAllStep E st k).1.pendingOutMessages v := by
        rw [hs]
        exact told_singleton rfl
      refine hfirst.trans fun v' hv' => ?_
      subst hv'
      refine ih (v := v.tell m.token 0) ?_ fun k' => ?_
      · rw [hs]
        exact hact
      · rw [Member.lookup_tell, htoken]
        by_cases hk : k' = k
        · exact .inl (if_pos hk)
        · rw [if_neg hk]
          exact (h k').imp_right fun hk' => ⟨(List.mem_cons.mp hk'.1).resolve_left hk, hk'.2⟩

/-- `cancel_all` tells the member what it does. -/
theorem tells_cancelAll (h : Knows s v) : Tells s (cancelAll E s).1 v := by
  have hstart : Cancelling s.activeOrders (E.visit s.activeOrders.keys s.env).1.val v := by
    intro k
    rw [h.orders]
    rcases ho : s.activeOrders.lookup k with _ | o
    · exact .inl rfl
    · refine .inr ⟨?_, rfl⟩
      rw [(E.visit s.activeOrders.keys s.env).1.property.mem_iff]
      exact KeyedMap.mem_of_lookup ho
  refine (tells_cancelAllSteps E h.kept _ rfl hstart).imp fun v' hv' => ?_
  obtain ⟨hasked, hgone⟩ := hv'
  refine h.remove (P := fun _ => True) (fun k => (if_pos trivial).symm ▸ rfl)
    (sameQueues_cancelAll E s).pendingModify hasked fun k => ?_
  rw [if_pos trivial]
  exact (hgone k).resolve_right fun hk => List.not_mem_nil hk.1

/-! ## Packets -/

/-- A new order, acknowledged with all that it asks for. -/
theorem Knows.enter (h : Knows s v) {no : NewOrder}
    (hunheard : Renaming.Unheard (BoeSession.renames s) no.token.str) (hqty : no.qty.toNat ≤ 1000000)
    {d : BoeOrder}
    (hact : s'.activeOrders = s.activeOrders.insert no.token.str (BoeOrder.parseOrder d no))
    (hmod : s'.pendingModify = s.pendingModify) : Knows s' (v.tell no.token no.qty) := by
  refine ⟨fun k o ho => ?_, fun k => ?_, ?_, ?_, ?_⟩
  · rw [hact, KeyedMap.lookup_insert] at ho
    split at ho
    · rename_i hk
      obtain rfl := Option.some.inj ho
      refine ⟨hk.symm, ⟨?_, ?_⟩, Int.le_refl 0⟩
      · exact Int.natCast_nonneg no.qty.toNat
      · show (no.qty.toNat : ℤ) ≤ 1000000
        omega
    · exact h.kept k o ho
  · rw [Member.lookup_tell, hact, KeyedMap.lookup_insert]
    by_cases hk : k = no.token.str
    · rw [if_pos hk, if_pos hk]
      show Member.left no.qty = Member.left (UInt32.ofInt (no.qty.toNat : ℤ))
      rw [ofInt_toNat]
    · rw [if_neg hk, if_neg hk, h.orders]
  · unfold BoeSession.renames at hunheard ⊢
    rw [hmod]
    refine (h.renames.use hunheard).subset fun k hk => ?_
    have hk' : k ∈ s'.activeOrders := hk
    rwa [hact, AList.mem_insert] at hk'
  · rw [hmod]
    exact h.asked
  · rw [hmod]
    exact h.qty

/-- A modification to a new token is noted. -/
theorem Knows.note (h : Knows s v) {mo : ModifyOrder}
    (hunheard : Renaming.Unheard (BoeSession.renames s) mo.token.str) :
    Knows s { v with asked := v.asked.insert mo.token.str mo.origToken.str } := by
  refine ⟨h.kept, h.orders, h.renames, fun mo' hmo' => ?_, h.qty⟩
  have hne := (hunheard _ (List.mem_map_of_mem hmo')).2
  show (v.asked.insert mo.token.str mo.origToken.str).lookup mo'.token.str = _
  rw [AList.lookup_insert_ne (Ne.symm hne)]
  exact h.asked mo' hmo'

/-- And queued. -/
theorem Knows.queue (h : Knows s v) {mo : ModifyOrder} (hold : mo.origToken.str ∈ s.activeOrders)
    (hnew : mo.token.str ∉ s.activeOrders)
    (hunheard : Renaming.Unheard (BoeSession.renames s) mo.token.str) (hqty : mo.qty.toNat ≤ 1000000)
    (hact : s'.activeOrders = s.activeOrders)
    (hmod : s'.pendingModify = s.pendingModify ++ [.parseModifyOrder mo]) :
    Knows s' { v with asked := v.asked.insert mo.token.str mo.origToken.str } := by
  have hnoted := h.note hunheard
  refine ⟨hact ▸ h.kept, hact ▸ h.orders, ?_, ?_, ?_⟩
  · unfold BoeSession.renames
    rw [hact, hmod, List.map_append]
    exact h.renames.request hold hnew hunheard
  · rw [hmod]
    refine List.forall_mem_append.mpr ⟨hnoted.asked, List.forall_mem_singleton.mpr ?_⟩
    exact AList.lookup_insert v.asked
  · rw [hmod]
    exact List.forall_mem_append.mpr ⟨h.qty, List.forall_mem_singleton.mpr hqty⟩

/-- The answer to a proper packet tells the member what it does. -/
theorem tells_packet (h : Knows s v) {p : Mem} (hp : Proper s (.packet p)) :
    Tells s (step E s (.packet p)) (v.ask (.packet p)) := by
  rw [Member.ask]
  rcases step_packet E s p with ⟨hr, hs⟩ | ⟨r, hr, hs⟩ <;> rw [hs, hr]
  · exact Told.of_eq rfl h
  replace hp : ProperRequest s r := hp r hr
  cases r with
  | login req => exact h.idle (idle_handleLoginRequest E s req)
  | heartbeat => exact Told.of_eq rfl (h.congr rfl rfl)
  | enter no =>
    rcases enterOrder_cases E s no with ⟨-, w, m, hs⟩ | ⟨hacc, w, d, m, htoken, hqty, -, hs⟩ <;>
      rw [handle, hs] <;> apply told_singleton
    · exact h.congr rfl rfl
    · obtain ⟨hunheard, hle⟩ := hp hacc.1
      show Knows _ (v.tell m.token m.leavesQty)
      rw [htoken, hqty]
      exact h.enter hunheard hle rfl rfl
  | cancel co =>
    have hsame : KeyedMap.touch co.origToken.str (entry E.boeOrder s co.origToken.str) s.activeOrders =
        s.activeOrders := KeyedMap.touch_of_mem _ hp
    rcases cancelOrder_cases E s co with ⟨-, hs⟩ | ⟨-, w, ⟨-, hs⟩ | ⟨-, m, hs⟩⟩ <;> rw [handle, hs]
    · exact Told.of_eq rfl (h.congr rfl rfl)
    · exact Told.of_eq rfl (h.congr hsame rfl)
    · exact told_singleton (h.congr hsame rfl)
  | modify mo =>
    obtain ⟨hold, hnew, hunheard, hqty⟩ := hp
    rcases modifyOrder_cases E s mo with ⟨-, w, m, hs⟩ | ⟨-, -, w, hs⟩ <;> rw [handle, hs]
    · exact told_singleton ((h.note hunheard).congr rfl rfl)
    · exact Told.of_eq rfl (h.queue hold hnew hunheard hqty rfl rfl)

/-! ## Runs -/

/-- A new member of a new session knows that there is no order. -/
theorem knows_init (w : W) : Knows (init E w) .new := by
  refine ⟨fun k o ho => ?_, fun _ => rfl, Renaming.sound_nil _, List.forall_mem_nil _,
    List.forall_mem_nil _⟩
  cases ho

/-- A tick tells the member what it does. -/
theorem tells_marketLogic (h : Knows s v) : Tells s (marketLogic E s) v :=
  (h.idle (idle_heartbeatLogic E s)).trans fun _ h => (tells_cancelLogic E h).trans
    fun _ h => (tells_modifyLogic E h).trans fun _ h => tells_executionLogic E h

/-- After every proper event the member knows the book. -/
theorem Knows.step {x : BoeSession W × Member} (h : Knows x.1 x.2) {e : Event} (he : Proper x.1 e) :
    Knows (observe E x e).1 (observe E x e).2 := by
  cases e with
  | packet p => exact (tells_packet E h he).added
  | marketLogic => exact (tells_marketLogic E h).added
  | cancelAll => exact (tells_cancelAll E h).added
  | disconnect =>
    have htold : Tells x.1 (BoeSession.step E x.1 .disconnect) x.2 := Told.of_eq rfl (h.congr rfl rfl)
    exact htold.added

/-- Of 'a' 100 are left when it is moved to 'c' for 250 shares in all, of which 100 more are filled. -/
def traded : List Event :=
  [newPacket 'a' [200, 0, 0, 0], newPacket 'b' [100, 0, 0, 0], .marketLogic,
    modifyPacket 'a' 'c' [250, 0, 0, 0], cancelPacket 'b', .marketLogic]

example : (Machine.run (observe quietEnv) (init quietEnv (), .new) traded).2.orders.lookup
    (tokenOf 'c').str = some 50 := by decide +kernel

end BoeSession

end Evtsim
