import Evtsim.Boe.Steps
import Evtsim.Lib.Log
import Mathlib.Logic.Function.Basic

/-!
# Which order a modification acts on

`enter_order` takes any token that is not active, so one token can stand for several orders of a run.
`Identified` runs a session and names its orders: a packet that brings an order into the book gives it a
new name, and a modification that moves it takes the name along. A pending modification means the order
that was active under its old token on receipt; once a tick has gone through it, it means no order.

`modify_logic` keeps its queue and looks for the old token again at every tick, so
`actsOnMeant_iff` needs a condition on the ticks.
-/

namespace Evtsim

open Wire Boe Machine Log Session

namespace BoeSession

variable {W : Type} (E : Env W)

/-- A pending modification. -/
structure Pending where
  req : BoeModifyOrderReq
  /-- The name of the order that it means. -/
  order : Option ℕ
  /-- Its old token was active on receipt, and neither a tick nor `cancel_all` has come since. -/
  fresh : Bool

/-! ## `modify_logic` of a tick -/

/-- `modify_logic` on its way. -/
structure Trace (W : Type) where
  pass : Pass W
  /-- The key under which the order of a key was held when the pass began. -/
  origin : Key → Key
  /-- The collected tokens, with the requests that collected them. -/
  removing : List (Key × Pending)

namespace Trace

def start (s : BoeSession W) : Trace W := { pass := modifyStart E s, origin := id, removing := [] }

/-- One request. An order that is replaced in place, under equal tokens, counts as the same order. -/
def turn (t : Trace W) (p : Pending) : Trace W :=
  let st := modifyStep E t.pass p.req
  { pass := st
    origin :=
      if p.req.origToken.str ∈ t.pass.1.activeOrders then
        Function.update t.origin p.req.token.str (t.origin p.req.origToken.str)
      else t.origin
    removing := t.removing ++ (added t.pass.2 st.2).map fun k => (k, p) }

/-- The request does nothing unless it finds the order that it means, and every other order stays where
and as it is. -/
structure ActsOnMeant (name : Key → ℕ) (t : Trace W) (p : Pending) : Prop where
  finds : p.order = some (name (t.origin p.req.origToken.str)) ∨ modifyStep E t.pass p.req = t.pass
  others : ∀ k o, t.pass.1.activeOrders.lookup k = some o → p.order ≠ some (name (t.origin k)) →
    (turn E t p).pass.1.activeOrders.lookup k = some o ∧
      name ((turn E t p).origin k) = name (t.origin k)

/-- At the end of the pass a collected token holds no order but the one that its request means. -/
def RemovesMeant (name : Key → ℕ) (t : Trace W) : Prop :=
  ∀ q ∈ t.removing, q.1 ∈ t.pass.1.activeOrders → q.2.order = some (name (t.origin q.1))

/-- A request that finds an order is fresh, no earlier request of the pass has moved the order there,
and its new token is free unless it is the old one. -/
def Regular (t : Trace W) (p : Pending) : Prop :=
  p.req.origToken.str ∈ t.pass.1.activeOrders →
    p.fresh = true ∧ t.origin p.req.origToken.str = p.req.origToken.str ∧
      (p.req.token.str = p.req.origToken.str ∨ p.req.token.str ∉ t.pass.1.activeOrders)

/-- At the end of the pass a collected token holds no order but the one that its request found. -/
def RemovesFound (t : Trace W) : Prop :=
  ∀ q ∈ t.removing, q.1 ∈ t.pass.1.activeOrders → t.origin q.1 = q.2.req.origToken.str

end Trace

/-! ## The session -/

/-- A session whose orders have names. -/
structure Identified (W : Type) where
  boe : BoeSession W
  /-- The name of the order that is active under a key. -/
  name : Key → ℕ
  /-- The name of the next order. -/
  next : ℕ
  /-- The entries of `pending_modify`. -/
  waiting : List Pending

namespace Identified

def init (w : W) : Identified W :=
  { boe := BoeSession.init E w, name := fun _ => 0, next := 0, waiting := [] }

/-- A modification on receipt. -/
def receive (a : Identified W) (mo : BoeModifyOrderReq) : Pending :=
  { req := mo
    order := if mo.origToken.str ∈ a.boe.activeOrders then some (a.name mo.origToken.str) else none
    fresh := mo.origToken.str ∈ a.boe.activeOrders }

/-- `modify_logic` of a tick. -/
def trace (a : Identified W) : Trace W :=
  Machine.run (Trace.turn E) (Trace.start E a.boe) a.waiting

/-- One event. A packet brings in at most one order, under a key that was free. -/
def step (a : Identified W) : Event → Identified W
  | .packet p =>
    let s := BoeSession.step E a.boe (.packet p)
    { boe := s
      name := fun k => if k ∈ a.boe.activeOrders then a.name k else a.next
      next := a.next + 1
      waiting := a.waiting ++ (added a.boe.pendingModify s.pendingModify).map (receive a) }
  | .marketLogic =>
    { boe := BoeSession.step E a.boe .marketLogic
      name := fun k => a.name ((trace E a).origin k)
      next := a.next
      waiting := a.waiting.map fun p => { p with order := none, fresh := false } }
  | .cancelAll =>
    { a with
      boe := BoeSession.step E a.boe .cancelAll
      waiting := a.waiting.map fun p => { p with fresh := false } }
  | .disconnect => { a with boe := BoeSession.step E a.boe .disconnect }

/-- A tick lets every request change and remove only the order that it means. -/
def ActsOnMeant (a : Identified W) : Event → Prop
  | .marketLogic =>
    Along (Trace.turn E) (Trace.ActsOnMeant E a.name) (Trace.start E a.boe) a.waiting ∧
      (trace E a).RemovesMeant a.name
  | _ => True

/-- Every request of a tick that finds an order is fresh and finds it where it was when the tick began,
with its new token free or the old one, and a collected token holds no other order at the end. -/
def Regular (a : Identified W) : Event → Prop
  | .marketLogic =>
    Along (Trace.turn E) Trace.Regular (Trace.start E a.boe) a.waiting ∧ (trace E a).RemovesFound
  | _ => True

/-- The names do not touch the session. -/
theorem step_boe (a : Identified W) (e : Event) :
    (step E a e).boe = BoeSession.step E a.boe e := by
  cases e with
  | packet p => rfl
  | marketLogic => rfl
  | cancelAll => rfl
  | disconnect => rfl

end Identified

namespace Trace

/-! ## One request -/

/-- A turn does nothing, or the order that it finds goes to the new token. -/
theorem turn_cases (t : Trace W) (p : Pending) :
    (p.req.origToken.str ∉ t.pass.1.activeOrders ∧ turn E t p = t) ∨
    (p.req.origToken.str ∈ t.pass.1.activeOrders ∧ modifyStep E t.pass p.req ≠ t.pass ∧
      (turn E t p).origin =
        Function.update t.origin p.req.token.str (t.origin p.req.origToken.str) ∧
      (∀ k, k ≠ p.req.token.str → k ≠ p.req.origToken.str →
        (turn E t p).pass.1.activeOrders.lookup k = t.pass.1.activeOrders.lookup k) ∧
      (∀ k, k ∈ (turn E t p).pass.1.activeOrders ↔
        k = p.req.token.str ∨ k ≠ p.req.origToken.str ∧ k ∈ t.pass.1.activeOrders)) := by
  rcases modifyStep_cases E t.pass p.req with ⟨hnot, hs⟩ | ⟨o, ho, w, A, bo, m, -, -, hA, hs⟩
  · -- the request finds no order
    left
    refine ⟨hnot, ?_⟩
    unfold turn
    rw [hs, if_neg hnot]
    dsimp only
    rw [added_self, List.map_nil, List.append_nil]
  · right
    -- the order found goes to the new token, and the old one is free unless it is the same
    have hmem := KeyedMap.mem_of_lookup ho
    have hlook : ∀ k, (turn E t p).pass.1.activeOrders.lookup k =
        if k = p.req.token.str then some bo
        else if k = p.req.origToken.str then none
        else t.pass.1.activeOrders.lookup k := by
      intro k
      show (modifyStep E t.pass p.req).1.activeOrders.lookup k = _
      rw [hs]
      exact hA k
    refine ⟨hmem, fun hsame => ?_, if_pos hmem, fun k hnew horig => ?_, fun k => ?_⟩
    · have hout := congrArg (fun st : Pass W => st.1.pendingOutMessages) (hs.symm.trans hsame)
      exact List.cons_ne_nil _ _ (List.self_eq_append_right.mp hout.symm)
    · rw [hlook, if_neg hnew, if_neg horig]
    · rw [KeyedMap.mem_iff_lookup, hlook, KeyedMap.mem_iff_lookup]
      by_cases hnew : k = p.req.token.str
      · simp [hnew]
      rw [if_neg hnew, or_iff_right hnew]
      by_cases horig : k = p.req.origToken.str
      · simp [horig]
      · rw [if_neg horig, and_iff_right horig]

/-- A turn collects a token for its own request only, and only if that finds an order. -/
theorem mem_removing_turn {t : Trace W} {p : Pending} {q : Key × Pending}
    (h : q ∈ (turn E t p).removing) :
    q ∈ t.removing ∨ q.2 = p ∧ p.req.origToken.str ∈ t.pass.1.activeOrders := by
  rcases turn_cases E t p with ⟨-, hs⟩ | ⟨hmem, -⟩
  · rw [hs] at h
    exact .inl h
  · rcases List.mem_append.mp h with h | h
    · exact .inl h
    · obtain ⟨k, -, rfl⟩ := List.mem_map.mp h
      exact .inr ⟨rfl, hmem⟩

/-- The orders of the pass were all active before the tick, each under one key. -/
structure Rooted (s : BoeSession W) (t : Trace W) : Prop where
  mem : ∀ k ∈ t.pass.1.activeOrders, t.origin k ∈ s.activeOrders
  injective : ∀ j ∈ t.pass.1.activeOrders, ∀ k ∈ t.pass.1.activeOrders,
    t.origin j = t.origin k → j = k

/-- At its start a pass has every order under the key that it had. -/
theorem rooted_start (s : BoeSession W) : Rooted s (start E s) := by
  refine ⟨fun k hk => ?_, fun j _ k _ h => h⟩
  by_contra hnot
  refine cancelLogic_absent E ?_ hk
  rw [(idle_heartbeatLogic E s).activeOrders]
  exact hnot

/-- A turn loses track of no order. -/
theorem rooted_turn {s : BoeSession W} {t : Trace W} (h : Rooted s t) (p : Pending) :
    Rooted s (turn E t p) := by
  rcases turn_cases E t p with ⟨-, hs⟩ | ⟨hmem, -, horigin, -, hact⟩
  · rw [hs]
    exact h
  -- the order of another key has not come from where the moved one has
  have hother : ∀ k, k ≠ p.req.token.str → k ∈ (turn E t p).pass.1.activeOrders →
      (turn E t p).origin k = t.origin k ∧ k ∈ t.pass.1.activeOrders ∧
        t.origin k ≠ t.origin p.req.origToken.str := by
    intro k hnew hk
    obtain ⟨horig, hk'⟩ := ((hact k).mp hk).resolve_left hnew
    refine ⟨?_, hk', fun heq => horig (h.injective k hk' _ hmem heq)⟩
    rw [horigin]
    exact Function.update_of_ne hnew _ _
  have hself : (turn E t p).origin p.req.token.str = t.origin p.req.origToken.str := by
    rw [horigin]
    exact Function.update_self _ _ _
  refine ⟨fun k hk => ?_, fun j hj k hk heq => ?_⟩
  · by_cases hnew : k = p.req.token.str
    · rw [hnew, hself]
      exact h.mem _ hmem
    · rw [(hother k hnew hk).1]
      exact h.mem k (hother k hnew hk).2.1
  · by_cases hj' : j = p.req.token.str
    · by_cases hk' : k = p.req.token.str
      · rw [hj', hk']
      · rw [hj', hself, (hother k hk' hk).1] at heq
        exact absurd heq.symm (hother k hk' hk).2.2
    · by_cases hk' : k = p.req.token.str
      · rw [hk', hself, (hother j hj' hj).1] at heq
        exact absurd heq (hother j hj' hj).2.2
      · rw [(hother j hj' hj).1, (hother k hk' hk).1] at heq
        exact h.injective j (hother j hj' hj).2.1 k (hother k hk' hk).2.1 heq

end Trace

namespace Identified

/-! ## Names -/

/-- A fresh request means the order that is active under its old token; any other means none of the
active orders. -/
def Meant (a : Identified W) (p : Pending) : Prop :=
  p.fresh = true ∧ p.req.origToken.str ∈ a.boe.activeOrders ∧
      p.order = some (a.name p.req.origToken.str) ∨
    p.fresh = false ∧ ∀ i, p.order = some i → i < a.next ∧ ∀ k ∈ a.boe.activeOrders, a.name k ≠ i

/-- The names tell the active orders apart, and the pending requests know theirs. -/
structure Known (a : Identified W) : Prop where
  waiting : a.waiting.map Pending.req = a.boe.pendingModify
  injective : ∀ j ∈ a.boe.activeOrders, ∀ k ∈ a.boe.activeOrders, a.name j = a.name k → j = k
  lt : ∀ k ∈ a.boe.activeOrders, a.name k < a.next
  meant : ∀ p ∈ a.waiting, Meant a p

/-- A new session has no order to name. -/
theorem known_init (w : W) : Known (init E w) :=
  ⟨rfl, fun _ hj => absurd hj List.not_mem_nil, fun _ hk => absurd hk List.not_mem_nil,
    List.forall_mem_nil _⟩

/-- The request means the order that it finds exactly if it is fresh and the order has not been moved
there. -/
theorem Known.finds_iff {a : Identified W} (h : Known a) {t : Trace W} (ht : t.Rooted a.boe)
    {p : Pending} (hp : Meant a p) (hmem : p.req.origToken.str ∈ t.pass.1.activeOrders) :
    p.order = some (a.name (t.origin p.req.origToken.str)) ↔
      p.fresh = true ∧ t.origin p.req.origToken.str = p.req.origToken.str := by
  rcases hp with ⟨hfresh, hact, horder⟩ | ⟨hfresh, hnone⟩
  · rw [horder, and_iff_right hfresh]
    constructor
    · intro heq
      exact (h.injective _ hact _ (ht.mem _ hmem) (Option.some.inj heq)).symm
    · intro heq
      rw [heq]
  · refine iff_of_false (fun horder => ?_) fun hyes => Bool.false_ne_true (hfresh.symm.trans hyes.1)
    exact (hnone _ horder).2 _ (ht.mem _ hmem) rfl

/-- One request acts on the order that it means exactly if it is regular. -/
theorem Known.turn_iff {a : Identified W} (h : Known a) {t : Trace W}
    (ht : t.Rooted a.boe) {p : Pending} (hp : Meant a p) :
    t.ActsOnMeant E a.name p ↔ t.Regular p := by
  rcases Trace.turn_cases E t p with ⟨hnot, hs⟩ | ⟨hmem, hacts, horigin, hkept, -⟩
  · refine iff_of_true ⟨.inr (congrArg Trace.pass hs), fun k o ho _ => ?_⟩ fun hmem => absurd hmem hnot
    rw [hs]
    exact ⟨ho, rfl⟩
  have hfinds := h.finds_iff ht hp hmem
  have hself : (Trace.turn E t p).origin p.req.token.str = t.origin p.req.origToken.str := by
    rw [horigin]
    exact Function.update_self _ _ _
  constructor
  · rintro ⟨hfound, hothers⟩ -
    have horder := hfound.resolve_right hacts
    obtain ⟨hfresh, hplace⟩ := hfinds.mp horder
    refine ⟨hfresh, hplace, ?_⟩
    by_contra hbad
    rw [not_or, not_not] at hbad
    obtain ⟨hdiffers, hheld⟩ := hbad
    -- the order under the new token would lose its name
    obtain ⟨x, hx⟩ := KeyedMap.mem_iff_lookup.mp hheld
    have hname : a.name (t.origin p.req.token.str) ≠ a.name (t.origin p.req.origToken.str) :=
      fun heq => hdiffers (ht.injective _ hheld _ hmem
        (h.injective _ (ht.mem _ hheld) _ (ht.mem _ hmem) heq))
    have hlost := (hothers _ x hx fun heq =>
      hname (Option.some.inj (heq.symm.trans horder))).2
    rw [hself] at hlost
    exact hname hlost.symm
  · intro hreg
    obtain ⟨hfresh, hplace, hnew⟩ := hreg hmem
    have horder := hfinds.mpr ⟨hfresh, hplace⟩
    refine ⟨.inl horder, fun k o ho hk => ?_⟩
    have horig : k ≠ p.req.origToken.str := fun heq => hk (heq ▸ horder)
    have hdiffers : k ≠ p.req.token.str := by
      rintro rfl
      rcases hnew with hsame | hfree
      · exact horig hsame
      · exact hfree (KeyedMap.mem_of_lookup ho)
    refine ⟨(hkept k hdiffers horig).trans ho, ?_⟩
    rw [horigin, Function.update_of_ne hdiffers]

/-! ## One tick -/

/-- The requests that have collected a token are fresh. -/
def Attached (a : Identified W) (t : Trace W) : Prop :=
  ∀ q ∈ t.removing, q.2.req.origToken.str ∈ a.boe.activeOrders ∧
    q.2.order = some (a.name q.2.req.origToken.str)

/-- The request of a regular turn that collects a token is fresh. -/
theorem attached_turn {a : Identified W} {t : Trace W} (h : Attached a t) {p : Pending}
    (hp : Meant a p) (hreg : t.Regular p) : Attached a (t.turn E p) := by
  intro q hq
  rcases Trace.mem_removing_turn E hq with hq | ⟨rfl, hmem⟩
  · exact h q hq
  · have hfresh := (hreg hmem).1
    rcases hp with ⟨-, hp⟩ | ⟨hstale, -⟩
    · exact hp
    · exact absurd (hstale.symm.trans hfresh) Bool.false_ne_true

/-- The order meant is removed exactly if the order found is. -/
theorem Known.removesMeant_iff {a : Identified W} (h : Known a) {t : Trace W}
    (ht : t.Rooted a.boe) (hatt : Attached a t) : t.RemovesMeant a.name ↔ t.RemovesFound := by
  refine forall₂_congr fun q hq => forall_congr' fun hmem => ?_
  obtain ⟨hact, horder⟩ := hatt q hq
  rw [horder]
  constructor
  · intro heq
    exact (h.injective _ hact _ (ht.mem _ hmem) (Option.some.inj heq)).symm
  · intro heq
    rw [heq]

/-- At its end a pass has the orders of its start. -/
theorem rooted_trace (a : Identified W) : (trace E a).Rooted a.boe :=
  run_invariant (I := Trace.Rooted a.boe) (fun _ p ht => Trace.rooted_turn E ht p)
    (Trace.rooted_start E a.boe) a.waiting

/-- A tick acts on the orders that its requests mean exactly if its turns are regular. -/
theorem Known.tick_iff {a : Identified W} (h : Known a) :
    ActsOnMeant E a .marketLogic ↔ Regular E a .marketLogic := by
  have hmeant : Along (Trace.turn E) (fun _ p => Meant a p) (Trace.start E a.boe) a.waiting :=
    along_of_forall h.meant
  have halong : Along (Trace.turn E) (Trace.ActsOnMeant E a.name) (Trace.start E a.boe) a.waiting ↔
      Along (Trace.turn E) Trace.Regular (Trace.start E a.boe) a.waiting :=
    along_congr (I := Trace.Rooted a.boe) (fun t p ht _ _ => Trace.rooted_turn E ht p)
      (fun t p ht hp => h.turn_iff E ht hp) (Trace.rooted_start E a.boe) hmeant
  refine (and_congr_left' halong).trans (and_congr_right fun hreg => ?_)
  have hatt : Attached a (trace E a) :=
    run_of_along (I := Attached a) (fun t p ht hp => attached_turn E ht hp.1 hp.2)
      (List.forall_mem_nil _) (hmeant.and hreg)
  exact h.removesMeant_iff (rooted_trace E a) hatt

/-- The tick goes through the queue of the session. -/
theorem Known.pass_trace {a : Identified W} (h : Known a) :
    (trace E a).pass =
      Machine.run (modifyStep E) (modifyStart E a.boe) (modifyStart E a.boe).1.pendingModify := by
  rw [pendingModify_modifyStart, ← h.waiting]
  exact run_reading (fun _ _ => rfl) _ _

/-- A tick keeps the names apart. -/
theorem Known.marketLogic {a : Identified W} (h : Known a) : Known (step E a .marketLogic) := by
  have hroot := rooted_trace E a
  have hmem : ∀ k ∈ (BoeSession.step E a.boe .marketLogic).activeOrders,
      k ∈ (trace E a).pass.1.activeOrders := by
    intro k hk
    by_contra hnot
    refine executionLogic_absent E (fun hmod => hnot ?_) hk
    rw [h.pass_trace]
    exact (KeyedMap.mem_eraseAll.mp hmod).2
  refine ⟨?_, fun j hj k hk heq => ?_, fun k hk => h.lt _ (hroot.mem k (hmem k hk)), ?_⟩
  · show (a.waiting.map _).map Pending.req = (BoeSession.marketLogic E a.boe).pendingModify
    rw [(marketLogic_queues E a.boe).2, List.map_map, ← h.waiting]
    rfl
  · exact hroot.injective j (hmem j hj) k (hmem k hk)
      (h.injective _ (hroot.mem j (hmem j hj)) _ (hroot.mem k (hmem k hk)) heq)
  · intro p hp
    obtain ⟨q, -, rfl⟩ := List.mem_map.mp hp
    exact .inr ⟨rfl, fun i hi => nomatch hi⟩

/-! ## Other events -/

/-- A packet takes no order out of the book, puts at most one there, and queues at most one
modification. -/
theorem packet_book (s : BoeSession W) (p : Mem) :
    (∀ k ∈ s.activeOrders, k ∈ (BoeSession.step E s (.packet p)).activeOrders) ∧
      (∃ k₀, ∀ k ∈ (BoeSession.step E s (.packet p)).activeOrders, k ∈ s.activeOrders ∨ k = k₀) ∧
      ((BoeSession.step E s (.packet p)).pendingModify = s.pendingModify ∨
        ∃ mo, (BoeSession.step E s (.packet p)).pendingModify = s.pendingModify ++ [mo]) := by
  rcases step_packet E s p with ⟨-, hs⟩ | ⟨r, -, hs⟩
  · rw [hs]
    exact ⟨fun _ hk => hk, ⟨[], fun _ hk => .inl hk⟩, .inl rfl⟩
  rw [hs]
  rcases handle_cases E s r with ⟨hidle, -⟩ | ⟨no, w, d, m, -, -, -, -, -, hh⟩ |
    ⟨mo, w, -, -, -, hh⟩ | ⟨co, o, -, -, -, hh⟩ | ⟨co, -, -, hidle⟩
  · rw [hidle.activeOrders, hidle.pendingModify]
    exact ⟨fun _ hk => hk, ⟨[], fun _ hk => .inl hk⟩, .inl rfl⟩
  · rw [hh]
    refine ⟨fun k hk => (AList.mem_insert _).mpr (.inr hk), ⟨no.token.str, fun k hk => ?_⟩, .inl rfl⟩
    exact ((AList.mem_insert _).mp hk).symm
  · rw [hh]
    exact ⟨fun _ hk => hk, ⟨[], fun _ hk => .inl hk⟩, .inr ⟨_, rfl⟩⟩
  · rw [hh]
    exact ⟨fun _ hk => hk, ⟨[], fun _ hk => .inl hk⟩, .inl rfl⟩
  · rw [hidle.activeOrders, hidle.pendingModify]
    exact ⟨fun k hk => KeyedMap.mem_touch.mpr (.inr hk),
      ⟨co.origToken.str, fun k hk => (KeyedMap.mem_touch.mp hk).symm⟩, .inl rfl⟩

/-- A packet names the order that it brings and keeps the names apart. -/
theorem Known.packet {a : Identified W} (h : Known a) (p : Mem) : Known (step E a (.packet p)) := by
  obtain ⟨hkept, ⟨k₀, hnew⟩, hqueue⟩ := packet_book E a.boe p
  have hold : ∀ k ∈ a.boe.activeOrders, (step E a (.packet p)).name k = a.name k :=
    fun k hk => if_pos hk
  have hfresh : ∀ k ∉ a.boe.activeOrders, (step E a (.packet p)).name k = a.next :=
    fun k hk => if_neg hk
  have hle : ∀ k, k ∈ a.boe.activeOrders → (step E a (.packet p)).name k < a.next := by
    intro k hk
    rw [hold k hk]
    exact h.lt k hk
  -- a key that is new gets a name that no other key has had
  refine ⟨?_, fun j hj k hk heq => ?_, fun k hk => ?_, fun q hq => ?_⟩
  · show (a.waiting ++ (added a.boe.pendingModify
      (BoeSession.step E a.boe (.packet p)).pendingModify).map (receive a)).map Pending.req = _
    rw [List.map_append, h.waiting, List.map_map]
    show a.boe.pendingModify ++ (added a.boe.pendingModify _).map (fun mo => mo) = _
    rw [List.map_id']
    rcases hqueue with hsame | ⟨mo, hmore⟩
    · rw [hsame, added_self, List.append_nil]
      exact hsame.symm
    · rw [hmore, added_append]
      exact hmore.symm
  · by_cases hj' : j ∈ a.boe.activeOrders
    · by_cases hk' : k ∈ a.boe.activeOrders
      · rw [hold j hj', hold k hk'] at heq
        exact h.injective j hj' k hk' heq
      · rw [hfresh k hk'] at heq
        exact absurd heq (hle j hj').ne
    · by_cases hk' : k ∈ a.boe.activeOrders
      · rw [hfresh j hj'] at heq
        exact absurd heq.symm (hle k hk').ne
      · rw [(hnew j hj).resolve_left hj', (hnew k hk).resolve_left hk']
  · by_cases hk' : k ∈ a.boe.activeOrders
    · exact (hle k hk').trans (Nat.lt_succ_self _)
    · rw [hfresh k hk']
      exact Nat.lt_succ_self _
  · rcases List.mem_append.mp hq with hq | hq
    · rcases h.meant q hq with ⟨hyes, hact, horder⟩ | ⟨hno, hnone⟩
      · exact .inl ⟨hyes, hkept _ hact, by rw [hold _ hact, horder]⟩
      · refine .inr ⟨hno, fun i hi => ⟨(hnone i hi).1.trans (Nat.lt_succ_self _), fun k hk => ?_⟩⟩
        by_cases hk' : k ∈ a.boe.activeOrders
        · rw [hold k hk']
          exact (hnone i hi).2 k hk'
        · rw [hfresh k hk']
          exact (hnone i hi).1.ne'
    · obtain ⟨mo, -, rfl⟩ := List.mem_map.mp hq
      by_cases hact : mo.origToken.str ∈ a.boe.activeOrders
      · refine .inl ⟨decide_eq_true hact, hkept _ hact, ?_⟩
        show (if _ then _ else _) = _
        rw [if_pos hact]
        exact congrArg some (hold _ hact).symm
      · refine .inr ⟨decide_eq_false hact, fun i hi => ?_⟩
        cases (if_neg hact).symm.trans hi

/-- `cancel_all` leaves no order to name. -/
theorem Known.cancelAll {a : Identified W} (h : Known a) : Known (step E a .cancelAll) := by
  have hempty : ∀ k, k ∉ (step E a .cancelAll).boe.activeOrders := fun _ => List.not_mem_nil
  refine ⟨?_, fun j hj => absurd hj (hempty j), fun k hk => absurd hk (hempty k), fun q hq => ?_⟩
  · show (a.waiting.map _).map Pending.req = (BoeSession.cancelAll E a.boe).1.pendingModify
    rw [(sameQueues_cancelAll E a.boe).pendingModify, List.map_map, ← h.waiting]
    rfl
  · obtain ⟨p, hp, rfl⟩ := List.mem_map.mp hq
    refine .inr ⟨rfl, fun i hi => ⟨?_, fun k hk => absurd hk (hempty k)⟩⟩
    rcases h.meant p hp with ⟨-, hact, horder⟩ | ⟨-, hnone⟩
    · obtain rfl := Option.some.inj (horder.symm.trans hi)
      exact h.lt _ hact
    · exact (hnone i hi).1

/-- Every event keeps the names apart. -/
theorem Known.step {a : Identified W} (h : Known a) (e : Event) : Known (step E a e) := by
  cases e with
  | packet p => exact h.packet E p
  | marketLogic => exact h.marketLogic E
  | cancelAll => exact h.cancelAll E
  | disconnect => exact ⟨h.waiting, h.injective, h.lt, h.meant⟩

/-- **A modification acts only on the order that it means**, in every run, exactly when at every tick
each request that finds an order is fresh and finds it where it was before the tick, with its new token
free or the old one, and a collected token holds no other order at the end of the pass. -/
theorem actsOnMeant_iff (w : W) (es : List Event) :
    Along (Identified.step E) (ActsOnMeant E) (init E w) es ↔
      Along (Identified.step E) (Regular E) (init E w) es := by
  refine along_congr (I := Known) (K := fun _ _ => True) (fun a e h _ _ => h.step E e)
    (fun a e h _ => ?_) (known_init E w) (along_of_forall fun _ _ => trivial)
  cases e with
  | packet p => exact Iff.rfl
  | marketLogic => exact h.tick_iff E
  | cancelAll => exact Iff.rfl
  | disconnect => exact Iff.rfl

/-- A modification moves its order away, the token is used again, and the next tick moves the new order
too. -/
theorem not_actsOnMeant :
    ¬ ∀ (W : Type) (E : Env W) (w : W) (es : List Event),
      Along (Identified.step E) (ActsOnMeant E) (init E w) es := by
  intro h
  have hrun := h Unit quietEnv () ([newPacket 'a' [200, 0, 0, 0],
    modifyPacket 'a' 'b' [50, 0, 0, 0], .marketLogic, newPacket 'a' [100, 0, 0, 0]] ++ [.marketLogic])
  have htick := (along_append.mp hrun).2.1.1
  -- the old request means no order any more, yet it is reported
  have hquiet := htick.imp (D := fun t p => p.order = none →
      (modifyStep quietEnv t.pass p.req).1.pendingOutMessages.length =
        t.pass.1.pendingOutMessages.length) fun t p ht hnone => by
    rw [ht.finds.resolve_left (hnone ▸ (Option.some_ne_none _).symm)]
  revert hquiet
  decide +kernel

end Identified

end BoeSession

end Evtsim
