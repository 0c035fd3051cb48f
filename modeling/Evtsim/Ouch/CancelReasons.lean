import Evtsim.Ouch.Filling
import Evtsim.Ouch.Lifetime
import Evtsim.Ouch.Tick

/-!
# Why an execution pass cancels an order

`execution_logic` asks `expired` before it looks for immediate-or-cancel orders. Such an order has a
countdown of zero from the start, which `expired` does not recompute, so it is reported as timed out and
never as an IOC order. `tellsReasons_iff` says that a tick gives the right reasons exactly when it visits
no immediate-or-cancel order with the gate open.
-/

namespace Evtsim

open Wire Ouch Log Machine Session

namespace OuchSession

variable {W : Type} (E : Env W)

/-! ## What a tick is to report -/

/-- The message reports the order of `t` as cancelled, for the reason `r`. -/
def cancelsFor (r : CancelReason) (t : Token) : Ouch.OutMsg → Bool
  | .orderCanceled m => m.reason = r && m.token = t
  | _ => false

/-- An immediate-or-cancel order with shares remaining that the execution pass removes is reported once as
such, and an order is reported as timed out only if its time in force is in seconds. -/
structure TellsReasons (s : OuchSession W) : Prop where
  ioc : ∀ k o, (beforeExecution E s).activeOrders.lookup k = some o →
    o.timeInForce = TimeInForce.ioc → 0 < o.remainingQty → k ∉ (marketLogic E s).activeOrders →
      (sentByTick E s).countP (cancelsFor .ioc o.token) = 1
  timeOut : ∀ m, .orderCanceled m ∈ sentByTick E s → m.reason = .timeOut →
    ∃ k o, (beforeExecution E s).activeOrders.lookup k = some o ∧ o.token = m.token ∧
      o.timeInForce ∉ [TimeInForce.ioc, TimeInForce.market, TimeInForce.system]

/-- The visit skips an immediate-or-cancel order. -/
def SkipsIoc (st : Pass W) (k : Key) : Prop :=
  (E.gate .execution st.1.env).1 = true →
    ∀ o ∈ st.1.activeOrders.lookup k, o.timeInForce ≠ TimeInForce.ioc

/-! ## Countdowns that are not recomputed -/

/-- An order that `expired` does not count down has its time in force as its countdown. -/
def CountsFromStart (_ : Key) (o : OuchOrder) : Prop :=
  o.countsDown = false → o.remainTimeInForce = o.timeInForce.toInt32

/-- Every step keeps the countdown of an order that is not counted down at its time in force. -/
theorem keptByAll_countsFromStart : KeptByAll E CountsFromStart where
  cut _ h := h
  modified _ h := h
  timed w h := by
    unfold OuchOrder.expired
    split
    · -- a countdown does not change the class of the time in force
      rename_i hcount
      exact fun hnot => absurd (hcount.symm.trans hnot) Bool.false_ne_true.symm
    · exact h
  marked h := h
  filled _ _ h := h
  entered _ _ _ := rfl
  replaced _ _ _ _ := rfl

/-- Of the orders that are not counted down, the immediate-or-cancel ones are expired. -/
theorem expired_of_countsFromStart {k : Key} {o : OuchOrder} (h : CountsFromStart k o)
    (hcount : o.countsDown = false) (w : W) :
    (o.expired E w).1 = true ↔ o.timeInForce = TimeInForce.ioc := by
  unfold OuchOrder.expired
  simp only [hcount, Bool.false_eq_true, if_false, h hcount, decide_eq_true_eq]
  have hclass : o.timeInForce = TimeInForce.ioc ∨ o.timeInForce = TimeInForce.market ∨
      o.timeInForce = TimeInForce.system := by
    by_contra hnone
    rw [← Bool.not_eq_true, OuchOrder.countsDown] at hcount
    simp only [Bool.and_eq_true, bne_iff_ne] at hcount
    exact hcount ⟨⟨fun h => hnone (.inl h), fun h => hnone (.inr (.inl h))⟩,
      fun h => hnone (.inr (.inr h))⟩
  rcases hclass with htif | htif | htif <;> rw [htif] <;> decide

/-! ## The reasons of a tick -/

section

variable {s : OuchSession W} (hcount : Each CountsFromStart (beforeExecution E s).activeOrders [])
  {pre post : List Key} {k : Key} {o : OuchOrder}
  (ho : (walk E (beforeExecution E s) pre).1.activeOrders.lookup k = some o)

include hcount ho

/-- An immediate-or-cancel order that is visited with the gate open is reported as timed out. -/
theorem timeOut_of_ioc (hsplit : (executionStart E (beforeExecution E s)).2 = pre ++ k :: post)
    (hgate : (E.gate .execution (walk E (beforeExecution E s) pre).1.env).1 = true)
    (hioc : o.timeInForce = TimeInForce.ioc) :
    ∃ m, .orderCanceled m ∈ sentByTick E s ∧ m.token = o.token ∧ m.reason = .timeOut := by
  have hclass : o.countsDown = false := by
    rw [← Bool.not_eq_true, OuchOrder.countsDown, hioc]
    decide
  have hkept := ((keptByAll_countsFromStart E).walk hcount pre).get ho
  have hexp : (firstReading E (walk E (beforeExecution E s) pre) o).1 = true :=
    (expired_of_countsFromStart E hkept hclass _).mpr hioc
  obtain ⟨w, m, htoken, -, hreason, hs⟩ := executionStep_timeOut E _ ho hgate hexp
  refine ⟨m, added_visit_subset_sentByTick E hsplit ?_, htoken, hreason⟩
  rw [hs, emit_out, withActive_out, added_append]
  exact List.mem_singleton_self _

/-- Of the other orders only those with a time in force in seconds are expired. -/
theorem inSeconds_of_expired (hioc : o.timeInForce ≠ TimeInForce.ioc)
    (hexp : (firstReading E (walk E (beforeExecution E s) pre) o).1 = true) :
    o.timeInForce ∉ [TimeInForce.ioc, TimeInForce.market, TimeInForce.system] := by
  have hkept := ((keptByAll_countsFromStart E).walk hcount pre).get ho
  refine OuchOrder.countsDown_iff.mp ?_
  rw [← Bool.not_eq_false]
  exact fun hclass => hioc ((expired_of_countsFromStart E hkept hclass _).mp hexp)

end

/-- The report names an order with its time in force in seconds, and each token has one order. -/
theorem skipsIoc_of_tellsReasons {s : OuchSession W}
    (hbook : Keyed (beforeExecution E s).activeOrders [])
    (hcount : Each CountsFromStart (beforeExecution E s).activeOrders []) (h : TellsReasons E s)
    {pre post : List Key} {k : Key}
    (hsplit : (executionStart E (beforeExecution E s)).2 = pre ++ k :: post) :
    SkipsIoc E (walk E (beforeExecution E s) pre) k := by
  intro hgate o ho hioc
  have ho' : (beforeExecution E s).activeOrders.lookup k = some o := (lookup_walk E hsplit).symm.trans ho
  obtain ⟨m, hsent, htoken, hreason⟩ := timeOut_of_ioc E hcount ho hsplit hgate hioc
  obtain ⟨k', x, hx, hxtoken, htif⟩ := h.timeOut m hsent hreason
  have hkey : o.token.str = k := (hbook k o ho').resolve_right List.not_mem_nil
  have hkey' : x.token.str = k' := (hbook k' x hx).resolve_right List.not_mem_nil
  rw [hxtoken, htoken, hkey] at hkey'
  rw [← hkey', ho'] at hx
  cases hx
  rw [hioc] at htif
  exact htif List.mem_cons_self

/-- An order that is not visited with the gate open stays. -/
theorem stays_of_closed {s : OuchSession W} {pre post : List Key} {k : Key} {o : OuchOrder}
    (hsplit : (executionStart E (beforeExecution E s)).2 = pre ++ k :: post)
    (ho : (beforeExecution E s).activeOrders.lookup k = some o)
    (hclosed : (E.gate .execution (walk E (beforeExecution E s) pre).1.env).1 = false) :
    k ∈ (marketLogic E s).activeOrders := by
  have ho' := (lookup_walk E hsplit).trans ho
  have hkept : k ∉ (walk E (beforeExecution E s) pre).2 := by
    have hnone : (k ∈ (walk E (beforeExecution E s) pre).2) = (k ∈ ([] : List Key)) :=
      congrArg Prod.snd (standing_walk E hsplit)
    rw [hnone]
    exact List.not_mem_nil
  have hstays := lookup_executionLogic E hsplit
  rw [executionStep_of_closed E _ ho' hclosed] at hstays
  exact KeyedMap.mem_of_lookup (hstays.trans (lookup_finishPass_of_some hkept ho'))

/-- A tick tells its reasons if no visit with the gate open meets an immediate-or-cancel order. -/
theorem tellsReasons_of_skipsIoc {s : OuchSession W}
    (hcount : Each CountsFromStart (beforeExecution E s).activeOrders []) (h : ∀ pre k post,
    (executionStart E (beforeExecution E s)).2 = pre ++ k :: post →
      SkipsIoc E (walk E (beforeExecution E s) pre) k) : TellsReasons E s := by
  constructor
  · intro k o ho hioc hpos hgone
    obtain ⟨pre, post, hsplit⟩ := List.append_of_mem ((mem_visits E).mpr (KeyedMap.mem_of_lookup ho))
    refine absurd (stays_of_closed E hsplit ho ?_) hgone
    rw [← Bool.not_eq_true]
    exact fun hgate => h pre k post hsplit hgate o ((lookup_walk E hsplit).trans ho) hioc
  · intro m hm hreason
    obtain ⟨pre, k, post, hsplit, hvisit⟩ := exists_visit_of_sent E hm fun hnot => by
      rcases hnot.2 m rfl with h | h <;> exact absurd (hreason.symm.trans h) (by decide)
    obtain ⟨o, ho, hgate, hsent⟩ := mem_added_executionStep E hvisit
    have hioc := h pre k post hsplit hgate o ho
    rcases hsent with ⟨c, heq, htoken, -, hexp⟩ | ⟨c, heq, -, hreason', -⟩ | ⟨x, heq, -⟩
    · cases heq
      exact ⟨k, o, (lookup_walk E hsplit).symm.trans ho, htoken.symm,
        inSeconds_of_expired E hcount ho hioc hexp⟩
    · cases heq
      exact absurd (hreason.symm.trans hreason') (by decide)
    · cases heq

/-- **Reasons.** A tick of a reachable session gives the right reasons exactly when it visits no
immediate-or-cancel order with the gate open. -/
theorem tellsReasons_iff (w : W) (es : List Event) :
    TellsReasons E (run E w es) ↔ EveryVisit E (SkipsIoc E) (run E w es) .marketLogic := by
  have hbook := keyed_beforeExecution E (keyed_run E w es)
  have hcount := (keptByAll_countsFromStart E).beforeExecution ((keptByAll_countsFromStart E).run w es)
  refine Iff.trans ?_ along_iff.symm
  constructor
  · intro h pre k post hsplit
    exact skipsIoc_of_tellsReasons E hbook hcount h hsplit
  · exact tellsReasons_of_skipsIoc E hcount

/-- An immediate-or-cancel order is reported as timed out. -/
theorem not_tellsReasons_ioc :
    ¬ ∀ (W : Type) (E : Env W) (w : W) (es : List Event), TellsReasons E (run E w es) := by
  intro h
  have hreasons := h Unit quietEnv () (loggedIn ++ [enterFor 'a' 0])
  generalize hs : run quietEnv () (loggedIn ++ [enterFor 'a' 0]) = s at hreasons
  have horder : ∃ o ∈ (beforeExecution quietEnv s).activeOrders.lookup (tokenOf 'a').str,
      o.timeInForce = TimeInForce.ioc ∧ 0 < o.remainingQty ∧
        (sentByTick quietEnv s).countP (cancelsFor .ioc o.token) = 0 := by
    rw [← hs]
    decide +kernel
  obtain ⟨o, ho, hioc, hpos, hnone⟩ := horder
  have hgone : (tokenOf 'a').str ∉ (marketLogic quietEnv s).activeOrders := by
    rw [← hs]
    decide +kernel
  have hone := hreasons.ioc _ o ho hioc hpos hgone
  rw [hnone] at hone
  exact absurd hone (by decide)

end OuchSession

end Evtsim
