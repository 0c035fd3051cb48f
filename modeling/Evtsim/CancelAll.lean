import Evtsim.Ouch.Expiry
import Evtsim.Boe.Emission

/-!
# `cancel_all`

Both sessions walk over the active orders, report those that are still active and then clear the book.
What is due for an order is one report if anything remains of it. No step of the walk reports more than
is due, so the whole walk reports what is due exactly when every step does.
-/

namespace Evtsim

open Wire Log Machine Session

namespace OuchSession

open Ouch

variable {W : Type} (E : Env W)

/-- What an `OrderCanceled` tells: the order and the shares that leave it. -/
def cancellation : OutMsg → Option (Token × ℤ)
  | .orderCanceled m => some (m.token, m.decrementQty.toNat)
  | _ => none

/-- The report that is due for the order under a key: all that remains, if anything does. -/
def due (A : KeyedMap Key OuchOrder) (k : Key) : List (Option (Token × ℤ)) :=
  match A.lookup k with
  | some o => if 0 < o.remainingQty then [some (o.token, o.remainingQty)] else []
  | none => []

/-- `cancel_all` reports what is due for the active orders and nothing else, returns the number of the
reports, and leaves no order active and the finished orders as they were. -/
structure ReportsAll (s : OuchSession W) : Prop where
  out : s.pendingOutMessages <+: (cancelAll E s).1.pendingOutMessages
  reports : ((added s.pendingOutMessages (cancelAll E s).1.pendingOutMessages).map cancellation).Perm
    (s.activeOrders.keys.flatMap (due s.activeOrders))
  count : (cancelAll E s).2 = (added s.pendingOutMessages (cancelAll E s).1.pendingOutMessages).length
  activeOrders : (cancelAll E s).1.activeOrders = ∅
  finishedOrders : (cancelAll E s).1.finishedOrders = s.finishedOrders

/-- An order with something remaining is neither expired when the walk comes to it nor marked dead, and
what remains fits the field of the message. -/
def Stands (st : OuchSession W × ℕ) (k : Key) : Prop :=
  ∀ o, st.1.activeOrders.lookup k = some o → 0 < o.remainingQty →
    (o.expired E st.1.env).1 = false ∧ o.state ≠ .dead ∧ o.remainingQty < 2 ^ 32

/-- Every order stands when the walk comes to it. -/
def AllStand (s : OuchSession W) : Prop :=
  Along (cancelAllStep E) (Stands E) (s.inEnv (E.visit s.activeOrders.keys s.env).2, 0)
    (E.visit s.activeOrders.keys s.env).1.val

/-- A step reports the order that it finds still active, and takes the shares that fit. -/
theorem added_cancelAllStep (st : OuchSession W × ℕ) (k : Key) :
    (added st.1.pendingOutMessages (cancelAllStep E st k).1.pendingOutMessages).map cancellation =
      match st.1.activeOrders.lookup k with
      | some o =>
        if (o.stillActive E st.1.env).1 then
          [some (o.token, ((UInt32.ofInt o.remainingQty).toNat : ℤ))]
        else []
      | none => [] := by
  unfold cancelAllStep
  rcases hlook : st.1.activeOrders.lookup k with _ | o
  · simp
  · obtain ⟨r, t, ho⟩ := retimed_stillActive E o st.1.env
    simp only
    split
    · simp [constructOrderCanceled, cancellation, ho]
    · simp

/-- The walk changes nothing of what is due. -/
theorem due_cancelAllStep (st : OuchSession W × ℕ) (k k' : Key) :
    due (cancelAllStep E st k).1.activeOrders k' = due st.1.activeOrders k' := by
  rcases cancelAllStep_cases E st k with ⟨-, h⟩ | ⟨o, o', w, ho, ⟨r, t, rfl⟩, ⟨m, -, -, h⟩ | h⟩
  · rw [h]
  all_goals
    rw [h]
    unfold due
    simp only [emit_activeOrders, inEnv_activeOrders, withActive_activeOrders, KeyedMap.lookup_insert]
    by_cases hk : k' = k
    · subst hk
      simp [ho]
    · simp [hk]

/-- A report weighs as much as the shares it tells of. -/
def shares (r : Option (Token × ℤ)) : ℕ :=
  match r with
  | some (_, n) => n.toNat
  | none => 0

/-- A step reports no more than is due, and if as much, then just that. -/
theorem shares_cancelAllStep (st : OuchSession W × ℕ) (k : Key) :
    (weight shares ((added st.1.pendingOutMessages
      (cancelAllStep E st k).1.pendingOutMessages).map cancellation) ≤
        weight shares (due st.1.activeOrders k)) ∧
    (weight shares ((added st.1.pendingOutMessages
      (cancelAllStep E st k).1.pendingOutMessages).map cancellation) =
        weight shares (due st.1.activeOrders k) →
      (added st.1.pendingOutMessages (cancelAllStep E st k).1.pendingOutMessages).map cancellation =
        due st.1.activeOrders k) := by
  rw [added_cancelAllStep]
  unfold due
  rcases st.1.activeOrders.lookup k with _ | o
  · simp
  · simp only
    by_cases hpos : 0 < o.remainingQty
    · have hle := toNat_ofInt_le hpos.le
      by_cases hactive : (o.stillActive E st.1.env).1 = true
      · -- `decrement_qty` has 32 bits, so that the report may tell of less than remains
        simp only [hpos, hactive, if_true, weight, shares]
        refine ⟨by omega, fun h => ?_⟩
        have hsame : ((UInt32.ofInt o.remainingQty).toNat : ℤ) = o.remainingQty := by omega
        rw [hsame]
      · simp only [hpos, hactive, if_true, Bool.false_eq_true, if_false, weight, shares]
        exact ⟨by omega, fun h => by omega⟩
    · rw [stillActive_of_le E (by omega)]
      simp [hpos]

/-- A step of `cancel_all` reports its order as it has to exactly if that is active and fits the
message. -/
theorem pays_iff (A : KeyedMap Key OuchOrder) (st : OuchSession W × ℕ) (k : Key)
    (hA : ∀ k, due st.1.activeOrders k = due A k) :
    Pays (cancelAllStep E) (fun st => st.1.pendingOutMessages) cancellation (due A) st k ↔
      Stands E st k := by
  unfold Pays Stands
  rw [added_cancelAllStep, ← hA k]
  unfold due
  rcases st.1.activeOrders.lookup k with _ | o
  · simp
  · simp only [Option.some.injEq, forall_eq']
    by_cases hpos : 0 < o.remainingQty
    · have hactive := stillActive_of_pos (E := E) (w := st.1.env) hpos
      have hfits : ((UInt32.ofInt o.remainingQty).toNat : ℤ) = o.remainingQty ↔
          o.remainingQty < 2 ^ 32 := by
        constructor
        · intro h
          have := (UInt32.ofInt o.remainingQty).toNat_lt
          omega
        · exact toNat_ofInt hpos.le
      by_cases hstill : (o.stillActive E st.1.env).1 = true
      · simp [hpos, hstill, hactive.mp hstill, hfits]
      · -- dropped without a report
        have hnot : ¬ ((o.expired E st.1.env).1 = false ∧ o.state ≠ .dead) := fun h =>
          hstill (hactive.mpr h)
        simp only [hstill, hpos, if_true, forall_const]
        refine iff_of_false (by simp) ?_
        rintro ⟨h1, h2, -⟩
        exact hnot ⟨h1, h2⟩
    · rw [stillActive_of_le E (by omega)]
      simp [hpos]

/-- The walk counts its reports. -/
theorem count_cancelAllStep (st : OuchSession W × ℕ) (k : Key) :
    (cancelAllStep E st k).2 =
      st.2 + (added st.1.pendingOutMessages (cancelAllStep E st k).1.pendingOutMessages).length := by
  rcases cancelAllStep_cases E st k with ⟨-, h⟩ | ⟨o, o', w, -, -, ⟨m, -, -, h⟩ | h⟩
  all_goals
    rw [h]
    simp

/-- `cancel_all` of an `ouch_session` reports every order exactly when all orders stand. -/
theorem reportsAll_iff (s : OuchSession W) : ReportsAll E s ↔ AllStand E s := by
  have hgrow := emits_cancelAllStep E
  have hreports := perm_added_run_iff (g := fun st : OuchSession W × ℕ => st.1.pendingOutMessages)
    (r := cancellation) (d := due s.activeOrders) (w := shares)
    (I := fun st => ∀ k, due st.1.activeOrders k = due s.activeOrders k) hgrow
    (fun st k hst k' => (due_cancelAllStep E st k k').trans (hst k'))
    (fun st k hst => hst k ▸ (shares_cancelAllStep E st k).1)
    (fun st k hst h => ((shares_cancelAllStep E st k).2 (by rw [h, hst k])).trans (hst k))
    (fun st k hst => pays_iff E s.activeOrders st k hst)
    (s := (s.inEnv (E.visit s.activeOrders.keys s.env).2, 0)) (fun _ => rfl)
    (E.visit s.activeOrders.keys s.env).1.property
  constructor
  · intro h
    exact hreports.mp h.reports
  · -- the walk has its reports and their number; the clear is unconditional
    intro h
    obtain ⟨ms, hms, -⟩ := emits_cancelAll E s
    have hcount := count_run (c := Prod.snd) hgrow (count_cancelAllStep E)
      (s.inEnv (E.visit s.activeOrders.keys s.env).2, 0) (E.visit s.activeOrders.keys s.env).1.val
    rw [Nat.zero_add] at hcount
    exact ⟨⟨ms, hms.symm⟩, hreports.mpr h, hcount, rfl, (cancelAll_frame E s).2⟩

end OuchSession

namespace BoeSession

open Boe

variable {W : Type} (E : Env W)

/-- The order that an `OrderCanceled` is about. -/
def cancellation : OutMsg → Option Token
  | .orderCanceled m => some m.token
  | _ => none

/-- The report that is due for the order under a key, if anything remains of it. -/
def due (A : KeyedMap Key BoeOrder) (k : Key) : List (Option Token) :=
  match A.lookup k with
  | some o => if 0 < o.remainingQty then [some o.token] else []
  | none => []

/-- As for an `ouch_session`, but that the reports tell of no shares. -/
structure ReportsAll (s : BoeSession W) : Prop where
  out : s.pendingOutMessages <+: (cancelAll E s).1.pendingOutMessages
  reports : ((added s.pendingOutMessages (cancelAll E s).1.pendingOutMessages).map cancellation).Perm
    (s.activeOrders.keys.flatMap (due s.activeOrders))
  count : (cancelAll E s).2 = (added s.pendingOutMessages (cancelAll E s).1.pendingOutMessages).length
  activeOrders : (cancelAll E s).1.activeOrders = ∅
  finishedOrders : (cancelAll E s).1.finishedOrders = s.finishedOrders

/-- Nothing above the ceiling of `still_active` remains of any active order. -/
def BelowCeiling (s : BoeSession W) : Prop :=
  ∀ k o, s.activeOrders.lookup k = some o → o.remainingQty ≤ 1000000

/-- A step reports the order that it finds still active. -/
theorem added_cancelAllStep (st : BoeSession W × ℕ) (k : Key) :
    (added st.1.pendingOutMessages (cancelAllStep E st k).1.pendingOutMessages).map cancellation =
      match st.1.activeOrders.lookup k with
      | some o => if o.stillActive then [some o.token] else []
      | none => [] := by
  unfold cancelAllStep
  rcases st.1.activeOrders.lookup k with _ | o
  · simp
  · simp only
    split
    · simp [constructOrderCanceled, cancellation]
    · simp

/-- A step of `cancel_all` leaves the orders alone. -/
theorem frame_cancelAllStep (st : BoeSession W × ℕ) (k : Key) :
    (cancelAllStep E st k).1.activeOrders = st.1.activeOrders ∧
      (cancelAllStep E st k).1.finishedOrders = st.1.finishedOrders := by
  rcases cancelAllStep_cases E st k with ⟨-, h⟩ | ⟨o, -, -, w, m, -, h⟩ <;> rw [h]
  · exact ⟨rfl, rfl⟩
  · exact ⟨rfl, rfl⟩

/-- A step of `cancel_all` counts the messages that it sends. -/
theorem count_cancelAllStep (st : BoeSession W × ℕ) (k : Key) :
    (cancelAllStep E st k).2 =
      st.2 + (added st.1.pendingOutMessages (cancelAllStep E st k).1.pendingOutMessages).length := by
  rcases cancelAllStep_cases E st k with ⟨-, h⟩ | ⟨o, -, -, w, m, -, h⟩
  all_goals
    rw [h]
    simp

/-- Every report weighs one: a step reports no more than is due, and if as much, then just that. -/
theorem one_cancelAllStep (st : BoeSession W × ℕ) (k : Key) :
    (weight (fun _ => 1) ((added st.1.pendingOutMessages
      (cancelAllStep E st k).1.pendingOutMessages).map cancellation) ≤
        weight (fun _ => 1) (due st.1.activeOrders k)) ∧
    (weight (fun _ => 1) ((added st.1.pendingOutMessages
      (cancelAllStep E st k).1.pendingOutMessages).map cancellation) =
        weight (fun _ => 1) (due st.1.activeOrders k) →
      (added st.1.pendingOutMessages (cancelAllStep E st k).1.pendingOutMessages).map cancellation =
        due st.1.activeOrders k) := by
  rw [added_cancelAllStep]
  unfold due
  rcases st.1.activeOrders.lookup k with _ | o
  · simp
  · simp only
    by_cases hactive : o.stillActive = true
    · have hpos := (BoeOrder.stillActive_iff.mp hactive).1
      simp [hactive, hpos]
    · by_cases hpos : 0 < o.remainingQty <;> simp [hactive, hpos, weight]

/-- A step of `cancel_all` reports its order as it has to exactly if that is active and fits the
message. -/
theorem pays_iff (A : KeyedMap Key BoeOrder) (st : BoeSession W × ℕ) (k : Key)
    (hA : st.1.activeOrders = A) :
    Pays (cancelAllStep E) (fun st => st.1.pendingOutMessages) cancellation (due A) st k ↔
      ∀ o, A.lookup k = some o → o.remainingQty ≤ 1000000 := by
  unfold Pays
  rw [added_cancelAllStep, hA]
  unfold due
  rcases A.lookup k with _ | o
  · simp
  · simp only [Option.some.injEq, forall_eq']
    by_cases hactive : o.stillActive = true
    · have h := BoeOrder.stillActive_iff.mp hactive
      simp [hactive, h.1, h.2]
    · -- nothing remains, so that nothing is due, or more than the ceiling does
      have h := mt BoeOrder.stillActive_iff.mpr hactive
      by_cases hpos : 0 < o.remainingQty
      · simp only [hactive, hpos, if_true, Bool.false_eq_true, if_false]
        exact iff_of_false (by simp) fun hle => h ⟨hpos, hle⟩
      · simp only [hactive, hpos, Bool.false_eq_true, if_false, true_iff]
        omega

/-- `cancel_all` of a `boe_session` reports every order exactly when none is above the ceiling. -/
theorem reportsAll_iff (s : BoeSession W) : ReportsAll E s ↔ BelowCeiling s := by
  have hgrow := emits_cancelAllStep E
  have hreports := perm_added_run_iff (g := fun st : BoeSession W × ℕ => st.1.pendingOutMessages)
    (r := cancellation) (d := due s.activeOrders) (w := fun _ => 1)
    (I := fun st => st.1.activeOrders = s.activeOrders) hgrow
    (fun st k hst => (frame_cancelAllStep E st k).1.trans hst)
    (fun st k hst => hst ▸ (one_cancelAllStep E st k).1)
    (fun st k hst h => ((one_cancelAllStep E st k).2 (by rw [h, hst])).trans (by rw [hst]))
    (fun st k hst => pays_iff E s.activeOrders st k hst)
    (s := (s.inEnv (E.visit s.activeOrders.keys s.env).2, 0)) rfl
    (E.visit s.activeOrders.keys s.env).1.property
  rw [along_forall_iff] at hreports
  constructor
  · intro h k o ho
    refine hreports.mp h.reports k ?_ o ho
    exact (E.visit s.activeOrders.keys s.env).1.property.mem_iff.mpr (KeyedMap.mem_of_lookup ho)
  · intro h
    obtain ⟨ms, hms, -⟩ := emits_cancelAll E s
    have hcount := count_run (c := Prod.snd) hgrow (count_cancelAllStep E)
      (s.inEnv (E.visit s.activeOrders.keys s.env).2, 0) (E.visit s.activeOrders.keys s.env).1.val
    rw [Nat.zero_add] at hcount
    have hfinished := run_invariant (f := cancelAllStep E)
      (I := fun st => st.1.finishedOrders = s.finishedOrders)
      (fun st k hst => (frame_cancelAllStep E st k).2.trans hst)
      (s := (s.inEnv (E.visit s.activeOrders.keys s.env).2, 0)) rfl
      (E.visit s.activeOrders.keys s.env).1.val
    exact ⟨⟨ms, hms.symm⟩, hreports.mpr fun k _ => h k, hcount, rfl, hfinished⟩

end BoeSession

/-- **`cancel_all` reports every order that it drops** exactly when, in an `ouch_session`, no order with
something remaining is expired or dead when the walk comes to it or exceeds the field of the message,
and, in a `boe_session`, no order has more than 1000000 shares remaining. -/
theorem cancelAll_iff {W : Type} (E : Env W) (s : OuchSession W) (b : BoeSession W) :
    (OuchSession.ReportsAll E s ↔ OuchSession.AllStand E s) ∧
      (BoeSession.ReportsAll E b ↔ BoeSession.BelowCeiling b) :=
  ⟨OuchSession.reportsAll_iff E s, BoeSession.reportsAll_iff E b⟩

/-- An immediate-or-cancel order that has not seen a tick yet, and an order of 1000001 shares, are
dropped without a word. -/
theorem not_cancelAll :
    (¬ ∀ (W : Type) (E : Env W) (w : W) (es : List OuchSession.Event),
      OuchSession.ReportsAll E (OuchSession.run E w es)) ∧
    ¬ ∀ (W : Type) (E : Env W) (w : W) (es : List BoeSession.Event),
      BoeSession.ReportsAll E (BoeSession.run E w es) := by
  constructor
  · intro h
    have hlength := (h Unit quietEnv ()
      (OuchSession.loggedIn ++ [OuchSession.enterFor 'a' 0])).reports.length_eq
    revert hlength
    decide +kernel
  · intro h
    have hlength := (h Unit quietEnv () [BoeSession.newPacket 'a' [0x41, 0x42, 0x0f, 0]]).reports.length_eq
    revert hlength
    decide +kernel

end Evtsim
