import Evtsim.Ouch.Frame
import Mathlib.Algebra.BigOperators.Group.List.Basic

/-!
# Share conservation in an `ouch_session`

Every accepted share of an order is executed, cancelled, or still held. The only step that can break
this is `cancel_logic`: it erases a fully cancelled order at the end of the pass, so a later request
of the same pass still finds it and reports shares once more. `conserves_run` says that the ledger of
a token balances throughout a run exactly when no batch of let-through requests is `Overdrawn`.
-/

namespace Evtsim

open Wire Ouch Session

namespace OuchSession

variable {W : Type} (E : Env W)

/-! ## The ledger of a token -/

/-- The shares of `t` that a message reports as executed. -/
def executedShares (t : Token) : Ouch.OutMsg → ℕ
  | .executed m => if m.token = t then m.executedQty.toNat else 0
  | _ => 0

/-- The shares of `t` that a message reports as cancelled. -/
def canceledShares (t : Token) : Ouch.OutMsg → ℕ
  | .orderCanceled m => if m.token = t then m.decrementQty.toNat else 0
  | _ => 0

/-- The remaining quantity with which the order of `t` is held, 0 if it is held nowhere. -/
def held (s : OuchSession W) (t : Token) : ℤ :=
  match s.activeOrders.lookup t.str with
  | some o => o.remainingQty
  | none =>
    match s.finishedOrders.lookup t.str with
    | some o => o.remainingQty
    | none => 0

/-- The quantity of the latest `OrderAccepted` for `t` is the sum of what has been executed since,
what has been cancelled since, and what is held. -/
def Conserves (t : Token) (s : OuchSession W) : Prop :=
  ∀ pre m post, s.pendingOutMessages = pre ++ .orderAccepted m :: post → m.token = t →
    (∀ m', .orderAccepted m' ∈ post → m'.token ≠ t) →
    (m.qty.toNat : ℤ) =
      (post.map (executedShares t)).sum + (post.map (canceledShares t)).sum + held s t

/-- The shares of `t` that are neither executed nor cancelled after one more message. -/
def owedStep (t : Token) (x : Option ℤ) : Ouch.OutMsg → Option ℤ
  | .orderAccepted m => if m.token = t then some m.qty.toNat else x
  | msg => x.map fun n => n - executedShares t msg - canceledShares t msg

/-- The accepted shares of `t` that are neither executed nor cancelled, once `t` has been accepted. -/
def owed (t : Token) (msgs : List Ouch.OutMsg) : Option ℤ := msgs.foldl (owedStep t) none

/-- What is owed is told message by message. -/
@[simp] theorem owed_concat (t : Token) (msgs : List Ouch.OutMsg) (msg : Ouch.OutMsg) :
    owed t (msgs ++ [msg]) = owedStep t (owed t msgs) msg := by
  rw [owed, List.foldl_append]
  rfl

/-- Messages that are not an acceptance of `t` take away what they report. -/
theorem owed_append {t : Token} {msgs post : List Ouch.OutMsg}
    (hpost : ∀ m, .orderAccepted m ∈ post → m.token ≠ t) :
    owed t (msgs ++ post) = (owed t msgs).map fun n : ℤ =>
      n - (post.map (executedShares t)).sum - (post.map (canceledShares t)).sum := by
  induction post using List.reverseRecOn with
  | nil =>
    rw [List.append_nil]
    cases owed t msgs <;> simp
  | append_singleton post msg ih =>
    have hprev := ih fun m hm => hpost m (List.mem_append_left _ hm)
    rw [← List.append_assoc, owed_concat, hprev]
    cases msg with
    | orderAccepted m =>
      have hm : m.token ≠ t := hpost m (List.mem_append_right _ List.mem_cons_self)
      rw [owedStep, if_neg hm]
      simp [executedShares, canceledShares]
    | _ =>
      cases owed t msgs with
      | none => rfl
      | some n =>
        refine congrArg some ?_
        simp only [List.map_append, List.sum_append, List.map_cons, List.map_nil, List.sum_cons,
          List.sum_nil]
        push_cast
        ring

/-- A token that is owed shares has been accepted. -/
theorem exists_accepted_of_owed {t : Token} {msgs : List Ouch.OutMsg} {n : ℤ}
    (h : owed t msgs = some n) :
    ∃ pre m post, msgs = pre ++ .orderAccepted m :: post ∧ m.token = t ∧
      ∀ m', .orderAccepted m' ∈ post → m'.token ≠ t := by
  induction msgs using List.reverseRecOn generalizing n with
  | nil => cases h
  | append_singleton msgs msg ih =>
    rw [owed_concat] at h
    by_cases hmsg : ∃ m, msg = .orderAccepted m ∧ m.token = t
    · obtain ⟨m, rfl, hm⟩ := hmsg
      exact ⟨msgs, m, [], rfl, hm, fun _ hm' => nomatch hm'⟩
    · obtain ⟨n', hn'⟩ : ∃ n', owed t msgs = some n' := by
        rcases hold : owed t msgs with _ | n'
        · rw [hold] at h
          cases msg with
          | orderAccepted m =>
            rw [owedStep] at h
            split at h
            · rename_i hm
              exact absurd ⟨m, rfl, hm⟩ hmsg
            · cases h
          | _ => cases h
        · exact ⟨n', rfl⟩
      obtain ⟨pre, m, post, rfl, hm, hpost⟩ := ih hn'
      refine ⟨pre, m, post ++ [msg], by simp, hm, ?_⟩
      intro m' hm'
      rcases List.mem_append.mp hm' with hmem | hmem
      · exact hpost m' hmem
      · have heq := List.mem_singleton.mp hmem
        exact fun ht => hmsg ⟨m', heq.symm, ht⟩

/-- The ledger of `t` balances when what is owed is what is held. -/
theorem conserves_iff {t : Token} {s : OuchSession W} :
    Conserves t s ↔ ∀ n, owed t s.pendingOutMessages = some n → n = held s t := by
  have hsplit : ∀ pre (m : OrderAccepted) post, m.token = t →
      (∀ m', .orderAccepted m' ∈ post → m'.token ≠ t) →
      owed t (pre ++ .orderAccepted m :: post) =
        some ((m.qty.toNat : ℤ) - (post.map (executedShares t)).sum
          - (post.map (canceledShares t)).sum) := by
    intro pre m post hm hpost
    rw [← List.singleton_append, ← List.append_assoc, owed_append hpost, owed_concat, owedStep,
      if_pos hm]
    rfl
  constructor
  · intro h n hn
    obtain ⟨pre, m, post, hout, hm, hpost⟩ := exists_accepted_of_owed hn
    rw [hout, hsplit pre m post hm hpost] at hn
    have hbal := h pre m post hout hm hpost
    have := Option.some.inj hn
    omega
  · intro h pre m post hout hm hpost
    have hbal := h _ (hout ▸ hsplit pre m post hm hpost)
    omega

/-! ## A batch of let-through cancels

`qs` are the quantities that successive cancels of one order leave, 0 for a full cancel, and `r` is
what remains of the order. A full cancel reports all that remains but takes nothing away, since the
order is erased at the end of the pass only. -/

/-- What the requests report as cancelled, all together. -/
def reported : ℕ → List ℕ → ℕ
  | _, [] => 0
  | r, q :: qs =>
    if q = 0 then r + reported r qs
    else if r ≤ q then reported r qs
    else r - q + reported q qs

/-- What remains in the order behind the requests. -/
def leftOver : ℕ → List ℕ → ℕ
  | r, [] => r
  | r, q :: qs => if q = 0 ∨ r ≤ q then leftOver r qs else leftOver q qs

/-- A request below what remains comes behind a full cancel. -/
def Overdrawn : ℕ → List ℕ → Prop
  | _, [] => False
  | r, q :: qs => if q = 0 then ∃ q' ∈ qs, q' < r else Overdrawn (min r q) qs

instance decidableOverdrawn : ∀ r qs, Decidable (Overdrawn r qs)
  | _, [] => isFalse id
  | r, q :: qs =>
    have := decidableOverdrawn (min r q) qs
    inferInstanceAs (Decidable (if q = 0 then ∃ q' ∈ qs, q' < r else Overdrawn (min r q) qs))

/-- Cancels leave no more than there is. -/
theorem leftOver_le (r : ℕ) (qs : List ℕ) : leftOver r qs ≤ r := by
  induction qs generalizing r with
  | nil => exact Nat.le_refl r
  | cons q qs ih =>
    unfold leftOver
    split
    · exact ih r
    · rename_i hq
      exact (ih q).trans (by omega)

/-- Nothing is reported exactly when no request asks for less than there is. -/
theorem reported_eq_zero (r : ℕ) (qs : List ℕ) : reported r qs = 0 ↔ ∀ q ∈ qs, r ≤ q := by
  induction qs generalizing r with
  | nil => simp [reported]
  | cons q qs ih =>
    rw [List.forall_mem_cons, ← ih r]
    rw [reported]
    split
    · omega
    split
    · omega
    · omega

/-- What is reported and what is left make up what there was, unless the batch is overdrawn. -/
theorem reported_add_left (r : ℕ) (qs : List ℕ) :
    reported r qs + (if 0 ∈ qs then 0 else leftOver r qs) = r ↔ ¬ Overdrawn r qs := by
  induction qs generalizing r with
  | nil => simp [reported, leftOver, Overdrawn]
  | cons q qs ih =>
    by_cases hq : q = 0
    · -- everything is reported at once, so nothing may be reported behind it
      have hzero := reported_eq_zero r qs
      simp only [reported, Overdrawn, hq, if_true, List.mem_cons, true_or]
      constructor
      · rintro h ⟨q', hq', hlt⟩
        exact absurd (hzero.mp (by omega) q' hq') (by omega)
      · intro h
        have : reported r qs = 0 := hzero.mpr fun q' hq' => by
          by_contra hlt
          exact h ⟨q', hq', by omega⟩
        omega
    · have hmem : 0 ∈ q :: qs ↔ 0 ∈ qs := by
        simp only [List.mem_cons, or_iff_right_iff_imp]
        exact fun h => absurd h.symm hq
      simp only [reported, leftOver, Overdrawn, hq, if_false, false_or, hmem]
      by_cases hle : r ≤ q
      · rw [if_pos hle, if_pos hle, Nat.min_eq_left hle]
        exact ih r
      · rw [if_neg hle, if_neg hle, Nat.min_eq_right (by omega), ← ih q]
        have hleft := leftOver_le q qs
        omega

/-- Two batches of cancels in a row. -/
theorem leftOver_append (r : ℕ) (ps qs : List ℕ) :
    leftOver r (ps ++ qs) = leftOver (leftOver r ps) qs := by
  induction ps generalizing r with
  | nil => rfl
  | cons p ps ih =>
    rw [List.cons_append, leftOver, leftOver]
    split
    · exact ih r
    · exact ih p

/-- What two batches report adds up. -/
theorem reported_append (r : ℕ) (ps qs : List ℕ) :
    reported r (ps ++ qs) = reported r ps + reported (leftOver r ps) qs := by
  induction ps generalizing r with
  | nil => simp [reported, leftOver]
  | cons p ps ih =>
    rw [List.cons_append, reported, reported, leftOver]
    by_cases hp : p = 0
    · rw [if_pos hp, if_pos hp, if_pos (.inl hp), ih, Nat.add_assoc]
    by_cases hle : r ≤ p
    · rw [if_neg hp, if_pos hle, if_neg hp, if_pos hle, if_pos (.inr hle), ih]
    · rw [if_neg hp, if_neg hle, if_neg hp, if_neg hle, if_neg (by omega), ih, Nat.add_assoc]

/-! ## One token in the passes of a tick -/

/-- What a session holds and owes of `t` does not change. -/
structure Untouched (t : Token) (s s' : OuchSession W) : Prop where
  active : s'.activeOrders.lookup t.str = s.activeOrders.lookup t.str
  finished : s'.finishedOrders.lookup t.str = s.finishedOrders.lookup t.str
  owed : owed t s'.pendingOutMessages = owed t s.pendingOutMessages

/-- What stays as it is is untouched. -/
theorem Untouched.refl (t : Token) (s : OuchSession W) : Untouched t s s := ⟨rfl, rfl, rfl⟩

/-- Two steps that do not touch the order. -/
theorem Untouched.trans {t : Token} {s s' s'' : OuchSession W} (h : Untouched t s s')
    (h' : Untouched t s' s'') : Untouched t s s'' :=
  ⟨h'.1.trans h.1, h'.2.trans h.2, h'.3.trans h.3⟩

/-- A message that reports no share of `t` leaves what is owed. -/
theorem owedStep_of_notMem {t : Token} {msg : Ouch.OutMsg} (h : t ∉ tokens msg) (x : Option ℤ) :
    owedStep t x msg = x := by
  cases msg <;> simp_all [owedStep, tokens, executedShares, canceledShares, eq_comm]

/-- A message that neither accepts, executes nor cancels the order changes nothing of what is owed. -/
theorem owed_concat_of_silent {t : Token} {msgs : List Ouch.OutMsg} {msg : Ouch.OutMsg}
    (hacc : ∀ m, msg = .orderAccepted m → m.token ≠ t) (hexe : executedShares t msg = 0)
    (hcan : canceledShares t msg = 0) : owed t (msgs ++ [msg]) = owed t msgs := by
  rw [owed_append (by
    intro m hm
    exact hacc m (List.mem_singleton.mp hm).symm)]
  simp [hexe, hcan]

/-- A cancel of another order takes no shares of this one. -/
theorem canceledShares_of_ne {t : Token} {m : OrderCanceled} (h : m.token ≠ t) :
    canceledShares t (.orderCanceled m) = 0 := if_neg h

/-- An execution of another order takes no shares of this one. -/
theorem executedShares_of_ne {t : Token} {m : Executed} (h : m.token ≠ t) :
    executedShares t (.executed m) = 0 := if_neg h

/-- Steps that concern no order touch none. -/
theorem untouched_of_idle {t : Token} {s s' : OuchSession W} (h : Idle s s') :
    Untouched t s s' := by
  refine ⟨by rw [h.activeOrders], by rw [h.finishedOrders], ?_⟩
  obtain ⟨ms, hout, hms⟩ := h.out
  rw [hout, owed_append (fun m hm => Bool.noConfusion (hms _ hm))]
  have hzero : ∀ f : Token → Ouch.OutMsg → ℕ, (∀ m, isReport m = false → f t m = 0) →
      (ms.map (f t)).sum = 0 := by
    intro f hf
    rw [List.sum_eq_zero]
    intro n hn
    obtain ⟨m, hm, rfl⟩ := List.mem_map.mp hn
    exact hf m (hms m hm)
  rw [hzero executedShares (by rintro (_ | _ | _ | _ | _ | _ | _ | _ | _ | _) h <;> first | rfl | cases h),
    hzero canceledShares (by rintro (_ | _ | _ | _ | _ | _ | _ | _ | _ | _) h <;> first | rfl | cases h)]
  simp

/-- An order of `t` holds a quantity that fits its messages, is not also finished, and has been
accepted. -/
structure Tracked (t : Token) (s : OuchSession W) : Prop where
  bounds : ∀ o, s.activeOrders.lookup t.str = some o → 0 ≤ o.remainingQty ∧ o.remainingQty < 2 ^ 32
  exclusive : t.str ∈ s.activeOrders → s.finishedOrders.lookup t.str = none
  accepted : t.str ∈ s.activeOrders → ∃ n, owed t s.pendingOutMessages = some n

/-- An untouched order stays tracked. -/
theorem Untouched.tracked {t : Token} {s s' : OuchSession W} (h : Untouched t s s')
    (hs : Tracked t s) : Tracked t s' := by
  have hmem : t.str ∈ s'.activeOrders ↔ t.str ∈ s.activeOrders := by
    rw [KeyedMap.mem_iff_lookup, KeyedMap.mem_iff_lookup, h.active]
  refine ⟨?_, ?_, ?_⟩
  · rw [h.active]
    exact hs.bounds
  · rw [hmem, h.finished]
    exact hs.exclusive
  · rw [hmem, h.owed]
    exact hs.accepted

/-- What is owed and what is held of `t` go down by the same amount. -/
def Shifts (t : Token) (s s' : OuchSession W) : Prop :=
  ∃ d : ℤ, owed t s'.pendingOutMessages = (owed t s.pendingOutMessages).map (· - d) ∧
    held s' t = held s t - d

/-- An untouched order holds what it held. -/
theorem Untouched.held {t : Token} {s s' : OuchSession W} (h : Untouched t s s') :
    held s' t = held s t := by
  unfold OuchSession.held
  rw [h.active, h.finished]

/-- An untouched order shifts by nothing. -/
theorem Untouched.shifts {t : Token} {s s' : OuchSession W} (h : Untouched t s s') :
    Shifts t s s' := by
  refine ⟨0, ?_, ?_⟩
  · rw [h.owed]
    cases OuchSession.owed t s.pendingOutMessages <;> simp
  · rw [h.held, sub_zero]

/-- Two shifts add up. -/
theorem Shifts.trans {t : Token} {s s' s'' : OuchSession W} (h : Shifts t s s')
    (h' : Shifts t s' s'') : Shifts t s s'' := by
  obtain ⟨d, howed, hheld⟩ := h
  obtain ⟨d', howed', hheld'⟩ := h'
  refine ⟨d + d', ?_, ?_⟩
  · rw [howed', howed, Option.map_map]
    congr 1
    funext n
    show n - d - d' = n - (d + d')
    ring
  · rw [hheld', hheld]
    ring

/-- A shift keeps a balanced ledger balanced and an unbalanced one unbalanced. -/
theorem Shifts.conserves_iff {t : Token} {s s' : OuchSession W} (h : Shifts t s s') :
    Conserves t s' ↔ Conserves t s := by
  obtain ⟨d, howed, hheld⟩ := h
  rw [OuchSession.conserves_iff, OuchSession.conserves_iff, howed, hheld]
  cases owed t s.pendingOutMessages with
  | none => simp
  | some n =>
    constructor
    · intro h n' hn'
      cases hn'
      have hbal : n - d = held s t - d := h (n - d) rfl
      omega
    · intro h n' hn'
      cases hn'
      have hbal := h n rfl
      show n - d = held s t - d
      omega

/-- A pass that leaves `t` alone up to its end does so with its end. -/
theorem untouched_finishPass {t : Token} {st st' : Pass W} (h : Untouched t st.1 st'.1)
    (hdone : t.str ∈ st'.2 ↔ t.str ∈ st.2) : Untouched t (finishPass st) (finishPass st') := by
  refine ⟨?_, h.finished, h.owed⟩
  show (KeyedMap.eraseAll st'.2 st'.1.activeOrders).lookup t.str =
    (KeyedMap.eraseAll st.2 st.1.activeOrders).lookup t.str
  rw [KeyedMap.lookup_eraseAll, KeyedMap.lookup_eraseAll, h.active]
  by_cases hmem : t.str ∈ st.2
  · rw [if_pos hmem, if_pos (hdone.mpr hmem)]
  · rw [if_neg hmem, if_neg fun h => hmem (hdone.mp h)]

/-- What a request for other orders leaves alone keeps its ledger. -/
theorem LeavesAlone.untouched {t : Token} {st st' : Pass W} (h : LeavesAlone t st st') :
    Untouched t st.1 st'.1 := by
  refine ⟨h.active, by rw [h.finished], h.out.foldl (fun x m hm => ?_) none⟩
  exact owedStep_of_notMem hm x

/-- What a loop leaves alone the whole pass does not touch. -/
theorem LeavesAlone.untouched_finishPass {t : Token} {st st' : Pass W} (h : LeavesAlone t st st') :
    Untouched t (Session.finishPass st) (Session.finishPass st') :=
  OuchSession.untouched_finishPass h.untouched h.done

/-- Different tokens have different texts. -/
theorem str_ne {t u : Token} (h : u ≠ t) : u.str ≠ t.str := fun heq => h (TokenOf.str_inj.mp heq)

/-- A visit to another order. -/
theorem untouched_executionStep {t : Token} {st : Pass W} (hk : Keyed st.1.activeOrders [])
    {k : Key} (hne : k ≠ t.str) :
    Untouched t (finishPass st) (finishPass (executionStep E st k)) := by
  rcases executionStep_cases E st k with ⟨-, hs⟩ | ⟨o, ho, hcases⟩
  · rw [hs]
    exact Untouched.refl t _
  have htoken : o.token ≠ t := fun h =>
    hne (((hk k o ho).resolve_right fun h => nomatch h).symm.trans (congrArg TokenOf.str h))
  rcases hcases with ⟨-, w, hs⟩ | ⟨o', w, hr, ⟨m, hm, -, hs⟩ | ⟨-, hs⟩ |
    ⟨exe, m, -, -, hm, -, hs⟩ | hs | hs⟩ <;> rw [hs] <;> apply untouched_finishPass
  · exact ⟨rfl, rfl, rfl⟩
  · exact Iff.rfl
  · exact ⟨AList.lookup_insert_ne hne.symm, rfl, owed_concat_of_silent (fun _ h => nomatch h) rfl
      (canceledShares_of_ne (hm ▸ htoken))⟩
  · exact KeyedMap.mem_append_of_ne hne
  · exact ⟨AList.lookup_insert_ne hne.symm, rfl, rfl⟩
  · exact KeyedMap.mem_append_of_ne hne
  · exact ⟨AList.lookup_insert_ne hne.symm, rfl, owed_concat_of_silent (fun _ h => nomatch h)
      (executedShares_of_ne (hm ▸ htoken)) rfl⟩
  · exact Iff.rfl
  · exact ⟨AList.lookup_insert_ne hne.symm, rfl, rfl⟩
  · exact Iff.rfl
  · exact ⟨AList.lookup_insert_ne hne.symm, AList.lookup_insert_ne hne.symm, rfl⟩
  · exact KeyedMap.mem_append_of_ne hne

/-- The end of a pass does not touch an order that is not collected. -/
theorem untouched_of_notMem {t : Token} {st : Pass W} (h : t.str ∉ st.2) :
    Untouched t st.1 (finishPass st) :=
  ⟨lookup_finishPass_of_notMem h, rfl, rfl⟩

/-- An active order holds what remains of it. -/
theorem held_of_active {s : OuchSession W} {t : Token} {o : OuchOrder}
    (h : s.activeOrders.lookup t.str = some o) : held s t = o.remainingQty := by
  unfold held
  rw [h]

/-- A finished order holds what remained of it. -/
theorem held_of_finished {s : OuchSession W} {t : Token} {o : OuchOrder}
    (hact : s.activeOrders.lookup t.str = none) (h : s.finishedOrders.lookup t.str = some o) :
    held s t = o.remainingQty := by
  unfold held
  rw [hact, h]

/-- An order that is nowhere holds nothing. -/
theorem held_of_absent {s : OuchSession W} {t : Token}
    (hact : s.activeOrders.lookup t.str = none) (h : s.finishedOrders.lookup t.str = none) :
    held s t = 0 := by
  unfold held
  rw [hact, h]

/-- A token without an active order is tracked. -/
theorem tracked_of_absent {s : OuchSession W} {t : Token}
    (h : s.activeOrders.lookup t.str = none) : Tracked t s := by
  have hmem : t.str ∉ s.activeOrders := KeyedMap.lookup_eq_none.mp h
  refine ⟨?_, fun hin => absurd hin hmem, fun hin => absurd hin hmem⟩
  intro o ho
  rw [h] at ho
  cases ho

/-- The collected order of `t` leaves the book with everything that it held reported as cancelled. -/
private theorem shifts_cancel {t : Token} {s s' : OuchSession W} {o : OuchOrder} {m : OrderCanceled}
    (hs : Tracked t s) (ho : s.activeOrders.lookup t.str = some o) (htoken : m.token = t)
    (hqty : m.decrementQty = UInt32.ofInt o.remainingQty)
    (hact : s'.activeOrders.lookup t.str = none)
    (hfin : s'.finishedOrders.lookup t.str = s.finishedOrders.lookup t.str)
    (hout : s'.pendingOutMessages = s.pendingOutMessages ++ [.orderCanceled m]) :
    Shifts t s s' := by
  obtain ⟨h0, h1⟩ := hs.bounds o ho
  have hnone := hs.exclusive (KeyedMap.mem_of_lookup ho)
  have hshares : (canceledShares t (.orderCanceled m) : ℤ) = o.remainingQty := by
    simp only [canceledShares, htoken, if_true, hqty]
    exact toNat_ofInt h0 h1
  refine ⟨o.remainingQty, ?_, ?_⟩
  · rw [hout, owed_concat, owedStep, hshares]
    · simp [executedShares]
    · exact fun _ h => nomatch h
  · rw [held_of_active ho, held_of_absent hact (hfin.trans hnone), sub_self]

/-- The order of `t` stays in the book with `d` shares fewer. -/
private theorem shifts_update {t : Token} {s s' : OuchSession W} {o o' : OuchOrder} {d : ℤ}
    (hs : Tracked t s) (ho : s.activeOrders.lookup t.str = some o)
    (hact : s'.activeOrders.lookup t.str = some o')
    (hfin : s'.finishedOrders.lookup t.str = s.finishedOrders.lookup t.str)
    (hleft : o'.remainingQty = o.remainingQty - d) (h0 : 0 ≤ d) (hle : d ≤ o.remainingQty)
    (howed : owed t s'.pendingOutMessages = (owed t s.pendingOutMessages).map (· - d)) :
    Shifts t s s' ∧ Tracked t s' := by
  obtain ⟨-, h1⟩ := hs.bounds o ho
  have hnone := hs.exclusive (KeyedMap.mem_of_lookup ho)
  obtain ⟨n, hn⟩ := hs.accepted (KeyedMap.mem_of_lookup ho)
  refine ⟨⟨d, howed, ?_⟩, ?_, fun _ => hfin.trans hnone, fun _ => ?_⟩
  · rw [held_of_active ho, held_of_active hact, hleft]
  · intro o'' ho''
    rw [hact] at ho''
    cases ho''
    omega
  · rw [howed, hn]
    exact ⟨n - d, rfl⟩

/-- A visit to the order of `t` itself, which comes once in a pass. -/
theorem shifts_executionStep {t : Token} {st : Pass W} (hk : Keyed st.1.activeOrders [])
    (ht : Tracked t st.1) (hdone : t.str ∉ st.2) :
    Shifts t st.1 (finishPass (executionStep E st t.str)) ∧
      Tracked t (finishPass (executionStep E st t.str)) := by
  rcases executionStep_cases E st t.str with ⟨-, hs⟩ | ⟨o, ho, hcases⟩
  · rw [hs]
    exact ⟨(untouched_of_notMem hdone).shifts, (untouched_of_notMem hdone).tracked ht⟩
  have htoken : o.token = t :=
    TokenOf.str_inj.mp ((hk _ o ho).resolve_right fun h => nomatch h)
  have hnone := ht.exclusive (KeyedMap.mem_of_lookup ho)
  obtain ⟨h0, h1⟩ := ht.bounds o ho
  have hlast : t.str ∈ st.2 ++ [t.str] := List.mem_append_right _ List.mem_cons_self
  have hsame : (owed t st.1.pendingOutMessages).map (· - (0 : ℤ)) =
      owed t st.1.pendingOutMessages := by
    cases owed t st.1.pendingOutMessages <;> simp
  generalize executionStep E st t.str = st' at hcases ⊢
  rcases hcases with ⟨-, w, hs⟩ | ⟨o', w, ⟨r, x, rfl⟩, ⟨m, hm, hqty, hs⟩ | ⟨hzero, hs⟩ |
    ⟨exe, m, hpos, hle, hm, hqty, hs⟩ | hs | hs⟩
  · -- the gate is closed
    have hsame : Untouched t st.1 (finishPass st') := by
      rw [hs]
      exact ⟨lookup_finishPass_of_notMem hdone, rfl, rfl⟩
    exact ⟨hsame.shifts, hsame.tracked ht⟩
  · -- cancelled by time
    have habsent : (finishPass st').activeOrders.lookup t.str = none :=
      lookup_finishPass_of_mem (by rw [hs]; exact hlast)
    exact ⟨shifts_cancel ht ho (hm.trans htoken) hqty habsent (by rw [hs]; rfl) (by rw [hs]; rfl),
      tracked_of_absent habsent⟩
  · -- collected with nothing left
    have habsent : (finishPass st').activeOrders.lookup t.str = none :=
      lookup_finishPass_of_mem (by rw [hs]; exact hlast)
    refine ⟨⟨0, ?_, ?_⟩, tracked_of_absent habsent⟩
    · rw [hs]
      exact hsame.symm
    · have hfin : (finishPass st').finishedOrders.lookup t.str = none := by
        rw [hs]
        exact hnone
      rw [held_of_absent habsent hfin, held_of_active ho, hzero, sub_zero]
  · -- filled
    obtain ⟨o', hact, hleft⟩ : ∃ o', (finishPass st').activeOrders.lookup t.str = some o' ∧
        o'.remainingQty = o.remainingQty - exe := by
      rw [hs]
      exact ⟨_, lookup_finishPass_of_some hdone (AList.lookup_insert _), rfl⟩
    refine shifts_update ht ho hact (by rw [hs]; rfl) hleft hpos.le hle ?_
    have hshares : (executedShares t (.executed m) : ℤ) = exe := by
      simp only [executedShares, hm.trans htoken, if_true, hqty]
      exact toNat_ofInt hpos.le (by omega)
    have hout : (finishPass st').pendingOutMessages =
        st.1.pendingOutMessages ++ [.executed m] := by
      rw [hs]
      rfl
    rw [hout, owed_concat, owedStep, hshares]
    · simp [canceledShares]
    · exact fun _ h => nomatch h
  · -- not filled
    obtain ⟨o', hact, hleft⟩ : ∃ o', (finishPass st').activeOrders.lookup t.str = some o' ∧
        o'.remainingQty = o.remainingQty - 0 := by
      rw [hs]
      exact ⟨_, lookup_finishPass_of_some hdone (AList.lookup_insert _), (sub_zero _).symm⟩
    exact shifts_update ht ho hact (by rw [hs]; rfl) hleft le_rfl h0 (by rw [hs]; exact hsame.symm)
  · -- moved to the finished orders
    have habsent : (finishPass st').activeOrders.lookup t.str = none :=
      lookup_finishPass_of_mem (by rw [hs]; exact hlast)
    obtain ⟨o', hfin, hleft⟩ : ∃ o', (finishPass st').finishedOrders.lookup t.str = some o' ∧
        o'.remainingQty = o.remainingQty := by
      rw [hs]
      exact ⟨_, AList.lookup_insert _, rfl⟩
    refine ⟨⟨0, by rw [hs]; exact hsame.symm, ?_⟩, tracked_of_absent habsent⟩
    rw [held_of_finished habsent hfin, held_of_active ho, sub_zero, hleft]

/-- A visit collects its own key at most. -/
theorem done_executionStep {st : Pass W} {k k' : Key} (h : k' ∈ (executionStep E st k).2) :
    k' ∈ st.2 ∨ k' = k := by
  have hlast : k' ∈ st.2 ++ [k] → k' ∈ st.2 ∨ k' = k := by
    rw [List.mem_append, List.mem_singleton]
    exact id
  rcases executionStep_cases E st k with ⟨-, hs⟩ | ⟨o, -, ⟨-, w, hs⟩ | ⟨o', w, -, ⟨m, -, -, hs⟩ |
    ⟨-, hs⟩ | ⟨exe, m, -, -, -, -, hs⟩ | hs | hs⟩⟩ <;> rw [hs] at h
  · exact .inl h
  · exact .inl h
  · exact hlast h
  · exact hlast h
  · exact .inl h
  · exact .inl h
  · exact hlast h

/-- Visits to other orders. -/
private theorem untouched_visits {t : Token} (st : Pass W) (hk : Keyed st.1.activeOrders [])
    {ks : List Key} (hks : t.str ∉ ks) :
    Keyed (Machine.run (executionStep E) st ks).1.activeOrders [] ∧
      Untouched t (finishPass st) (finishPass (Machine.run (executionStep E) st ks)) ∧
      (t.str ∈ (Machine.run (executionStep E) st ks).2 → t.str ∈ st.2) := by
  refine Machine.run_of_along
    (I := fun st' : Pass W => Keyed st'.1.activeOrders [] ∧
      Untouched t (Session.finishPass st) (Session.finishPass st') ∧ (t.str ∈ st'.2 → t.str ∈ st.2))
    (C := fun _ k => k ≠ t.str)
    ?_ ⟨hk, Untouched.refl t _, id⟩
    (Machine.along_of_forall fun k hmem heq => hks (heq ▸ hmem))
  rintro st' k ⟨hkeyed, hsame, hdone⟩ hne
  refine ⟨keyed_executionStep E hkeyed k, hsame.trans (untouched_executionStep E hkeyed hne), ?_⟩
  intro h
  exact hdone ((done_executionStep E h).resolve_right fun heq => hne heq.symm)

/-- The execution pass takes as much from what is owed of `t` as from what is held. -/
theorem shifts_executionLogic {t : Token} {s : OuchSession W} (hk : Keyed s.activeOrders [])
    (ht : Tracked t s) : Shifts t s (executionLogic E s) ∧ Tracked t (executionLogic E s) := by
  have hnodup : (E.visit s.activeOrders.keys s.env).1.val.Nodup :=
    (E.visit s.activeOrders.keys s.env).1.property.nodup_iff.mpr s.activeOrders.keys_nodup
  unfold executionLogic Session.executionLogic
  dsimp only
  generalize (E.visit s.activeOrders.keys s.env).1.val = ks at hnodup ⊢
  generalize (E.visit s.activeOrders.keys s.env).2 = w
  by_cases hmem : t.str ∈ ks
  · -- the visit to `t` splits the pass into two parts that leave `t` alone
    obtain ⟨pre, post, rfl⟩ := List.append_of_mem hmem
    have hpre : t.str ∉ pre := fun h =>
      (List.nodup_append.mp hnodup).2.2 _ h _ List.mem_cons_self rfl
    have hpost : t.str ∉ post :=
      (List.nodup_cons.mp (List.nodup_append.mp hnodup).2.1).1
    obtain ⟨hkeyed, hsame, hdone⟩ := untouched_visits E ({ s with env := w }, []) hk hpre
    rw [Machine.run_append, Machine.run_cons]
    generalize Machine.run (executionStep E) ({ s with env := w }, []) pre = st at *
    have hnot : t.str ∉ st.2 := fun h => nomatch hdone h
    have hraw : Untouched t s st.1 := by
      refine Untouched.trans ⟨hsame.1, hsame.2, hsame.3⟩ ?_
      have hend := untouched_of_notMem hnot
      exact ⟨hend.1.symm, hend.2.symm, hend.3.symm⟩
    obtain ⟨hshift, htracked⟩ := shifts_executionStep E hkeyed (hraw.tracked ht) hnot
    obtain ⟨-, hrest, -⟩ := untouched_visits E _ (keyed_executionStep E hkeyed t.str) hpost
    exact ⟨(hraw.shifts.trans hshift).trans hrest.shifts, hrest.tracked htracked⟩
  · obtain ⟨-, hsame, -⟩ := untouched_visits E ({ s with env := w }, []) hk hmem
    have hall : Untouched t s _ := ⟨hsame.1, hsame.2, hsame.3⟩
    exact ⟨hall.shifts, hall.tracked ht⟩

/-! ## The cancel pass -/

/-- The quantities of the requests for `k` in a batch that the gate lets through, in order. -/
def admitted (k : Key) : Pass W → List OuchCancelOrderReq → List ℕ
  | _, [] => []
  | st, co :: cos =>
    (if co.token.str = k ∧ (E.gate .cancelOrder st.1.env).1 = true then [co.qty.toNat] else []) ++
      admitted k (cancelStep E st co) cos

/-- What the requests `qs` do to the order of `t` within a pass. -/
structure CutDown (t : Token) (qs : List ℕ) (st st' : Pass W) (o : OuchOrder) : Prop where
  active : ∃ o', st'.1.activeOrders.lookup t.str = some o' ∧
    o'.remainingQty = leftOver o.remainingQty.toNat qs
  owed : owed t st'.1.pendingOutMessages =
    (owed t st.1.pendingOutMessages).map (· - (reported o.remainingQty.toNat qs : ℤ))
  done : t.str ∈ st'.2 ↔ t.str ∈ st.2 ∨ 0 ∈ qs

/-- Without cancels nothing is cut down. -/
theorem cutDown_nil {t : Token} {st st' : Pass W} {o : OuchOrder}
    (ho : st.1.activeOrders.lookup t.str = some o) (h0 : 0 ≤ o.remainingQty)
    (h : Untouched t st.1 st'.1) (hdone : t.str ∈ st'.2 ↔ t.str ∈ st.2) :
    CutDown t [] st st' o := by
  refine ⟨⟨o, h.active.trans ho, (Int.toNat_of_nonneg h0).symm⟩, ?_, ?_⟩
  · rw [h.owed]
    cases OuchSession.owed t st.1.pendingOutMessages <;> simp [reported]
  · rw [hdone]
    simp

/-- One request: it cuts the order of `t` down if it is for `t` and let through, and leaves `t` alone
otherwise. -/
theorem cutDown_cancelStep {t : Token} {st : Pass W} {o : OuchOrder}
    (ho : st.1.activeOrders.lookup t.str = some o) (h0 : 0 ≤ o.remainingQty)
    (h1 : o.remainingQty < 2 ^ 32) (co : OuchCancelOrderReq) :
    CutDown t (admitted E t.str st [co]) st (cancelStep E st co) o := by
  have hr : ((UInt32.ofInt o.remainingQty).toNat : ℤ) = o.remainingQty := toNat_ofInt h0 h1
  by_cases htoken : co.token = t
  · subst htoken
    rcases cancelStep_cases E st co with ⟨hskip, w, m, hs⟩ | ⟨o', ho', hgate, hcases⟩
    · -- the order is there, so it is the gate that rejects the request
      have hgate : (E.gate .cancelOrder st.1.env).1 ≠ true := by
        rcases hskip with hnot | hfalse
        · exact absurd (KeyedMap.mem_of_lookup ho) hnot
        · rw [hfalse]
          exact Bool.false_ne_true
      rw [admitted, if_neg fun h => hgate h.2, List.nil_append, admitted, hs]
      exact cutDown_nil ho h0
        ⟨rfl, rfl, owed_concat_of_silent (fun _ h => nomatch h) rfl rfl⟩ Iff.rfl
    · rw [ho] at ho'
      cases ho'
      rw [admitted, if_pos ⟨rfl, hgate⟩, admitted, List.append_nil]
      rcases hcases with ⟨hq, w, m, hm, hdec, hs⟩ | ⟨hq, hle, w, hs⟩ | ⟨hq, hlt, w, m, hm, hdec, hs⟩
      · -- a full cancel
        rw [hs, hq]
        refine ⟨⟨o, ho, ?_⟩, ?_, ?_⟩
        · simp [leftOver, Int.toNat_of_nonneg h0]
        · have hshares : (canceledShares co.token (.orderCanceled m) : ℤ) = o.remainingQty := by
            simp only [canceledShares, hm, if_true, hdec]
            exact hr
          rw [emit_out, owed_concat, owedStep, hshares]
          · simp [executedShares, reported, Int.toNat_of_nonneg h0]
          · exact fun _ h => nomatch h
        · simp
      · -- a request for no less than there is
        have hqle : o.remainingQty.toNat ≤ co.qty.toNat := by
          have := UInt32.le_iff_toNat_le.mp hle
          omega
        have hq0 : co.qty.toNat ≠ 0 := fun h => hq (UInt32.toNat_inj.mp h)
        rw [hs]
        refine ⟨⟨o, ho, ?_⟩, ?_, ?_⟩
        · simp [leftOver, hqle, Int.toNat_of_nonneg h0]
        · rw [inEnv_out]
          cases owed co.token st.1.pendingOutMessages <;> simp [reported, hq0, hqle]
        · simp [hq0.symm]
      · -- a partial cancel
        have hqlt : co.qty.toNat < o.remainingQty.toNat := by
          have := UInt32.lt_iff_toNat_lt.mp hlt
          omega
        have hq0 : co.qty.toNat ≠ 0 := fun h => hq (UInt32.toNat_inj.mp h)
        rw [hs]
        refine ⟨⟨_, AList.lookup_insert _, ?_⟩, ?_, ?_⟩
        · simp [leftOver, hq0, Nat.not_le.mpr hqlt]
        · have hdec' : (m.decrementQty.toNat : ℤ) = o.remainingQty.toNat - co.qty.toNat := by
            rw [hdec, UInt32.toNat_sub_of_le _ _ (UInt32.le_of_lt hlt)]
            have := UInt32.lt_iff_toNat_lt.mp hlt
            omega
          have hshares : (canceledShares co.token (.orderCanceled m) : ℤ) =
              o.remainingQty.toNat - co.qty.toNat := by
            simp only [canceledShares, hm, if_true]
            exact hdec'
          have hrep : (reported o.remainingQty.toNat [co.qty.toNat] : ℤ) =
              o.remainingQty.toNat - co.qty.toNat := by
            simp only [reported, hq0, if_false, if_neg (Nat.not_le.mpr hqlt)]
            omega
          rw [emit_out, owed_concat, owedStep, hshares, hrep]
          · simp [executedShares]
          · exact fun _ h => nomatch h
        · simp [hq0.symm]
  · -- a request for another order
    have hne : co.token.str ≠ t.str := str_ne htoken
    rw [admitted, if_neg fun h => hne h.1, List.nil_append, admitted]
    have halone := leavesAlone_cancelStep E st htoken
    exact cutDown_nil ho h0 halone.untouched halone.done

/-- Two batches of cancels cut an order down one after the other. -/
theorem CutDown.trans {t : Token} {qs qs' : List ℕ} {st st' st'' : Pass W} {o o' : OuchOrder}
    (h : CutDown t qs st st' o) (ho' : st'.1.activeOrders.lookup t.str = some o')
    (h' : CutDown t qs' st' st'' o') : CutDown t (qs ++ qs') st st'' o := by
  obtain ⟨o₁, ho₁, hleft⟩ := h.active
  rw [ho'] at ho₁
  cases ho₁
  have hnat : o'.remainingQty.toNat = leftOver o.remainingQty.toNat qs := by omega
  refine ⟨?_, ?_, ?_⟩
  · rw [leftOver_append, ← hnat]
    exact h'.active
  · rw [h'.owed, h.owed, Option.map_map, reported_append, ← hnat]
    congr 1
    funext n
    show n - (reported o.remainingQty.toNat qs : ℤ) - reported o'.remainingQty.toNat qs' = _
    push_cast
    ring
  · rw [h'.done, h.done, List.mem_append, or_assoc]

/-- The whole batch: the let-through requests for `t` cut its order down, one after the other. -/
theorem cutDown_run {t : Token} (st : Pass W) {o : OuchOrder}
    (ho : st.1.activeOrders.lookup t.str = some o) (h0 : 0 ≤ o.remainingQty)
    (h1 : o.remainingQty < 2 ^ 32) (cos : List OuchCancelOrderReq) :
    CutDown t (admitted E t.str st cos) st (Machine.run (cancelStep E) st cos) o := by
  induction cos generalizing st o with
  | nil => exact cutDown_nil ho h0 (Untouched.refl t st.1) Iff.rfl
  | cons co cos ih =>
    have hhead := cutDown_cancelStep E ho h0 h1 co
    obtain ⟨o', ho', hleft⟩ := hhead.active
    have hle := leftOver_le o.remainingQty.toNat (admitted E t.str st [co])
    have htail := ih (cancelStep E st co) ho' (by omega) (by omega)
    have hsplit : admitted E t.str st (co :: cos) =
        admitted E t.str st [co] ++ admitted E t.str (cancelStep E st co) cos := by
      rw [admitted, admitted, admitted, List.append_nil]
    rw [hsplit, Machine.run_cons]
    exact hhead.trans ho' htail

/-- A batch does nothing to a token that is not active. -/
theorem untouched_cancelLogic {t : Token} {s : OuchSession W}
    (h : s.activeOrders.lookup t.str = none) : Untouched t s (cancelLogic E s) := by
  have hrun : (Machine.run (cancelStep E) (s, []) s.pendingCancel).1.activeOrders.lookup t.str =
      none ∧
      Untouched t s (finishPass (Machine.run (cancelStep E) (s, []) s.pendingCancel)) := by
    refine Machine.run_invariant
      (I := fun st : Pass W => st.1.activeOrders.lookup t.str = none ∧ Untouched t s (finishPass st))
      (s := (s, [])) ?_ ⟨h, Untouched.refl t s⟩ s.pendingCancel
    rintro st co ⟨hnone, hsame⟩
    by_cases hne : co.token = t
    · -- a request for the token itself is rejected
      have hout : co.token.str ∉ st.1.activeOrders := hne ▸ KeyedMap.lookup_eq_none.mp hnone
      obtain ⟨w, m, -, hs⟩ := cancelStep_reject E (.inl hout)
      rw [hs]
      exact ⟨hnone, hsame.trans (untouched_finishPass
        ⟨rfl, rfl, owed_concat_of_silent (fun _ h => nomatch h) rfl rfl⟩ Iff.rfl)⟩
    · have halone := leavesAlone_cancelStep E st hne
      exact ⟨halone.active.trans hnone, hsame.trans halone.untouched_finishPass⟩
  exact ⟨hrun.2.1, hrun.2.2, hrun.2.3⟩

/-- No batch of let-through requests for the order of `t` is overdrawn. -/
def CancelsFit (t : Token) (s : OuchSession W) : Prop :=
  ∀ o, s.activeOrders.lookup t.str = some o →
    ¬ Overdrawn o.remainingQty.toNat (admitted E t.str (s, []) s.pendingCancel)

instance (t : Token) (s : OuchSession W) : Decidable (CancelsFit E t s) :=
  match h : s.activeOrders.lookup t.str with
  | none => isTrue fun o ho => by rw [h] at ho; cases ho
  | some o => decidable_of_iff
    (¬ Overdrawn o.remainingQty.toNat (admitted E t.str (s, []) s.pendingCancel))
    (by simp [CancelsFit, h])

/-- The cancel pass on an order of `t`: it is erased if one of its requests was a full cancel, and
cut down otherwise. -/
theorem cancelLogic_token {t : Token} {s : OuchSession W} {o : OuchOrder} (ht : Tracked t s)
    (ho : s.activeOrders.lookup t.str = some o) {qs : List ℕ}
    (hqs : admitted E t.str (s, []) s.pendingCancel = qs) :
    owed t (cancelLogic E s).pendingOutMessages =
        (owed t s.pendingOutMessages).map (· - (reported o.remainingQty.toNat qs : ℤ)) ∧
      (0 ∈ qs → (cancelLogic E s).activeOrders.lookup t.str = none) ∧
      (0 ∉ qs → ∃ o', (cancelLogic E s).activeOrders.lookup t.str = some o' ∧
        o'.remainingQty = leftOver o.remainingQty.toNat qs) := by
  obtain ⟨h0, h1⟩ := ht.bounds o ho
  obtain ⟨⟨o', ho', hleft⟩, howed, hdone⟩ :=
    cutDown_run E (s, []) ho h0 h1 s.pendingCancel
  rw [hqs] at hleft howed hdone
  refine ⟨howed, fun hzero => ?_, fun hzero => ⟨o', ?_, hleft⟩⟩
  · have hcollected := hdone.mpr (.inr hzero)
    unfold cancelLogic Session.cancelLogic
    exact lookup_finishPass_of_mem hcollected
  · exact lookup_finishPass_of_some
      (fun h => hzero ((hdone.mp h).resolve_left fun h => nomatch h)) ho'

/-- A cancel pass keeps an order tracked. -/
theorem tracked_cancelLogic {t : Token} {s : OuchSession W} (ht : Tracked t s) :
    Tracked t (cancelLogic E s) := by
  rcases hlook : s.activeOrders.lookup t.str with _ | o
  · exact (untouched_cancelLogic E hlook).tracked ht
  obtain ⟨h0, h1⟩ := ht.bounds o hlook
  have hmem := KeyedMap.mem_of_lookup hlook
  obtain ⟨n, hn⟩ := ht.accepted hmem
  obtain ⟨howed, habsent, hcut⟩ := cancelLogic_token E ht hlook rfl
  by_cases hzero : 0 ∈ admitted E t.str (s, []) s.pendingCancel
  · exact tracked_of_absent (habsent hzero)
  · obtain ⟨o', ho', hleft⟩ := hcut hzero
    have hle := leftOver_le o.remainingQty.toNat (admitted E t.str (s, []) s.pendingCancel)
    refine ⟨?_, fun _ => ?_, fun _ => ?_⟩
    · intro o'' ho''
      rw [ho'] at ho''
      cases ho''
      omega
    · rw [(cancelLogic_frame E s).2.2.2]
      exact ht.exclusive hmem
    · rw [howed, hn]
      exact ⟨_, rfl⟩

/-- The cancel pass keeps a balanced ledger balanced exactly when its batch is not overdrawn. -/
theorem cancelLogic_conserves {t : Token} {s : OuchSession W} (ht : Tracked t s)
    (hc : Conserves t s) : Conserves t (cancelLogic E s) ↔ CancelsFit E t s := by
  unfold CancelsFit
  rcases hlook : s.activeOrders.lookup t.str with _ | o
  · exact ⟨fun _ o ho => (nomatch ho),
      fun _ => (untouched_cancelLogic E hlook).shifts.conserves_iff.mpr hc⟩
  have hmem := KeyedMap.mem_of_lookup hlook
  obtain ⟨n, hn⟩ := ht.accepted hmem
  have hbal : n = o.remainingQty := by
    rw [conserves_iff.mp hc n hn, held_of_active hlook]
  have h0 := (ht.bounds o hlook).1
  simp only [Option.some.injEq, forall_eq']
  generalize hqs : admitted E t.str (s, []) s.pendingCancel = qs
  obtain ⟨howed, habsent, hcut⟩ := cancelLogic_token E ht hlook hqs
  rw [hn] at howed
  have hsum := reported_add_left o.remainingQty.toNat qs
  -- the ledger balances when the reports and what is left make up the order
  have hiff : ∀ x : ℤ, held (cancelLogic E s) t = x →
      (Conserves t (cancelLogic E s) ↔ n - reported o.remainingQty.toNat qs = x) := by
    rintro x rfl
    rw [conserves_iff, howed]
    exact ⟨fun h => h _ rfl, fun h n' hn' => Option.some.inj hn' ▸ h⟩
  by_cases hzero : 0 ∈ qs
  · have hfin : (cancelLogic E s).finishedOrders.lookup t.str = none := by
      rw [(cancelLogic_frame E s).2.2.2]
      exact ht.exclusive hmem
    rw [if_pos hzero] at hsum
    rw [← hsum, hiff 0 (held_of_absent (habsent hzero) hfin)]
    omega
  · obtain ⟨o', ho', hleft⟩ := hcut hzero
    rw [if_neg hzero] at hsum
    rw [← hsum, hiff _ ((held_of_active ho').trans hleft)]
    omega

/-! ## Runs -/

/-- A request to modify or replace `t`, or to replace another token by `t`. -/
def Request.names (t : Token) : Request → Bool
  | .modify mo => mo.token = t
  | .replace ro => ro.existingToken = t || ro.token = t
  | _ => false

/-- Events without `cancel_all` in which no modification or replacement names `t`. -/
def spares (t : Token) : Event → Bool
  | .cancelAll => false
  | .packet p => (request p).all fun r => !r.names t
  | _ => true

/-- On a tick, the batch of cancels that the gate lets through for `t` is not overdrawn. -/
def Fits (t : Token) (s : OuchSession W) : Event → Prop
  | .marketLogic => CancelsFit E t (heartbeatLogic E s)
  | _ => True

instance (t : Token) (s : OuchSession W) : ∀ e, Decidable (Fits E t s e)
  | .marketLogic => inferInstanceAs (Decidable (CancelsFit E t (heartbeatLogic E s)))
  | .setLogger | .packet _ | .cancelAll | .disconnect => isTrue trivial

/-- The book is keyed, `t` is tracked, and no pending modification or replacement names `t`. -/
structure Spared (t : Token) (s : OuchSession W) : Prop where
  keyed : Keyed s.activeOrders []
  tracked : Tracked t s
  modify : ∀ mo ∈ s.pendingModify, mo.token ≠ t
  replace : ∀ ro ∈ s.pendingReplace, ro.existingToken ≠ t ∧ ro.newToken ≠ t

/-- A new session spares every token. -/
theorem spared_init (t : Token) (w : W) : Spared t (init E w) :=
  ⟨keyed_empty, tracked_of_absent (AList.lookup_empty _), List.forall_mem_nil _,
    List.forall_mem_nil _⟩

/-- A packet keeps the ledger of a spared token balanced. -/
theorem spared_packet {t : Token} {s : OuchSession W} (hs : Spared t s) {p : Mem}
    (hp : spares t (.packet p) = true) :
    Spared t (step E s (.packet p)) ∧ (Conserves t s → Conserves t (step E s (.packet p))) := by
  have hkeyed := keyed_step E hs.keyed (.packet p)
  rcases step_packet E s p with ⟨-, hsame⟩ | ⟨r, -, hr, hstep⟩
  · rw [hsame]
    exact ⟨hs, id⟩
  have hnames : r.names t = false := by
    have hall : (request p).all (fun r => !r.names t) = true := hp
    rw [hr] at hall
    simpa using hall
  rw [hstep] at hkeyed ⊢
  rcases handle_cases E s r with ⟨hidle, -⟩ | ⟨eo, w, d, m, -, hacc, hm, hqty, hh⟩ |
    ⟨mo, w, rfl, -, -, hh⟩ | ⟨ro, w, rfl, -, hh⟩ | ⟨co, w, -, -, -, hh⟩
  · -- nothing comes of the request
    have hsame : Untouched t s (handle E s r) := untouched_of_idle hidle
    refine ⟨⟨hkeyed, hsame.tracked hs.tracked, ?_, ?_⟩, hsame.shifts.conserves_iff.mpr⟩
    · rw [hidle.pendingModify]
      exact hs.modify
    · rw [hidle.pendingReplace]
      exact hs.replace
  · rw [hh] at hkeyed ⊢
    by_cases ht : eo.token = t
    · -- the order of `t` itself
      subst ht
      have howed : owed eo.token (s.pendingOutMessages ++ [.orderAccepted m]) =
          some (eo.qty.toNat : ℤ) := by
        rw [owed_concat, owedStep, if_pos hm, hqty]
      have hlook := AList.lookup_insert (a := eo.token.str) (b := OuchOrder.parseOrder d eo)
        s.activeOrders
      refine ⟨⟨hkeyed, ⟨?_, ?_, ?_⟩, hs.modify, hs.replace⟩, fun _ => ?_⟩
      · intro o ho
        rw [emit_activeOrders, withActive_activeOrders, hlook] at ho
        cases ho
        have hlt := eo.qty.toNat_lt
        exact ⟨Int.natCast_nonneg _, by show (eo.qty.toNat : ℤ) < 2 ^ 32; omega⟩
      · exact fun _ => KeyedMap.lookup_eq_none.mpr hacc.2.2.2.2
      · exact fun _ => ⟨_, howed⟩
      · rw [conserves_iff, emit_out, withActive_out, howed, held_of_active hlook]
        rintro n hn
        cases hn
        rfl
    · -- an order of another token
      have hsame : Untouched t s ((s.withActive (s.activeOrders.insert eo.token.str
          (OuchOrder.parseOrder d eo))).emit w (.orderAccepted m)) := by
        refine ⟨AList.lookup_insert_ne (str_ne ht).symm, rfl, ?_⟩
        rw [emit_out, withActive_out, owed_concat, owedStep, if_neg (hm ▸ ht)]
      exact ⟨⟨hkeyed, hsame.tracked hs.tracked, hs.modify, hs.replace⟩,
        hsame.shifts.conserves_iff.mpr⟩
  · rw [hh] at hkeyed ⊢
    have hsame : Untouched t s { s.inEnv w with
        pendingModify := s.pendingModify ++ [.parseModifyOrder mo] } := ⟨rfl, rfl, rfl⟩
    refine ⟨⟨hkeyed, hsame.tracked hs.tracked, ?_, hs.replace⟩, hsame.shifts.conserves_iff.mpr⟩
    intro mo' hmo'
    rcases List.mem_append.mp hmo' with hold | hnew
    · exact hs.modify mo' hold
    · rw [List.mem_singleton.mp hnew]
      exact of_decide_eq_false hnames
  · rw [hh] at hkeyed ⊢
    have hsame : Untouched t s { s.inEnv w with
        pendingReplace := s.pendingReplace ++ [.parseReplaceOrder ro] } := ⟨rfl, rfl, rfl⟩
    refine ⟨⟨hkeyed, hsame.tracked hs.tracked, hs.modify, ?_⟩, hsame.shifts.conserves_iff.mpr⟩
    intro ro' hro'
    rcases List.mem_append.mp hro' with hold | hnew
    · exact hs.replace ro' hold
    · rw [List.mem_singleton.mp hnew]
      have hor := Bool.or_eq_false_iff.mp hnames
      exact ⟨of_decide_eq_false hor.1, of_decide_eq_false hor.2⟩
  · rw [hh] at hkeyed ⊢
    have hsame : Untouched t s { s.inEnv w with
        pendingCancel := s.pendingCancel ++ [.parseCancelOrder co] } := ⟨rfl, rfl, rfl⟩
    exact ⟨⟨hkeyed, hsame.tracked hs.tracked, hs.modify, hs.replace⟩,
      hsame.shifts.conserves_iff.mpr⟩

/-- A tick keeps the ledger of a spared token balanced exactly when its cancels fit. -/
theorem spared_marketLogic {t : Token} {s : OuchSession W} (hs : Spared t s) :
    Spared t (marketLogic E s) ∧
      (Conserves t s →
        (Conserves t (marketLogic E s) ↔ CancelsFit E t (heartbeatLogic E s))) := by
  have hbeat := idle_heartbeatLogic E s
  obtain ⟨-, hmod, hrep⟩ := marketLogic_queues E s
  have hsame₀ : Untouched t s (heartbeatLogic E s) := untouched_of_idle hbeat
  have ht₀ := hsame₀.tracked hs.tracked
  have hk₀ : Keyed (heartbeatLogic E s).activeOrders [] := by
    rw [hbeat.activeOrders]
    exact hs.keyed
  -- pass by pass: only the cancels can lose shares
  unfold marketLogic at hmod hrep ⊢
  obtain ⟨-, hcm, hcr, -⟩ := cancelLogic_frame E (heartbeatLogic E s)
  rw [hbeat.pendingModify] at hcm
  rw [hbeat.pendingReplace] at hcr
  have hk₁ := keyed_cancelLogic E hk₀
  have hcancel : Conserves t s →
      (Conserves t (cancelLogic E (heartbeatLogic E s)) ↔ CancelsFit E t (heartbeatLogic E s)) :=
    fun hc => cancelLogic_conserves E ht₀ (hsame₀.shifts.conserves_iff.mpr hc)
  have ht₁ : Tracked t (cancelLogic E (heartbeatLogic E s)) := tracked_cancelLogic E ht₀
  generalize cancelLogic E (heartbeatLogic E s) = s₁ at *
  have hsame₁ := (leavesAlone_modifyLogic E hk₁ (by rw [hcm]; exact hs.modify)).untouched
  have hk₂ := keyed_modifyLogic E hk₁
  have hframe₂ := (modifyLogic_frame E s₁).1.pendingReplace
  have ht₂ := hsame₁.tracked ht₁
  generalize modifyLogic E s₁ = s₂ at *
  have hsame₂ : Untouched t s₂ (replaceLogic E s₂) :=
    (leavesAlone_replaceLogic E (by rw [hframe₂, hcr]; exact hs.replace)).untouched
  have hk₃ := keyed_replaceLogic E hk₂
  obtain ⟨hshift, ht₃⟩ := shifts_executionLogic E hk₃ (hsame₂.tracked ht₂)
  have hafter := (hsame₁.shifts.trans hsame₂.shifts).trans hshift
  refine ⟨⟨keyed_executionLogic E hk₃, ht₃, ?_, ?_⟩, fun hc => hafter.conserves_iff.trans (hcancel hc)⟩
  · rw [hmod]
    exact hs.modify
  · rw [hrep]
    exact fun _ h => nomatch h

/-- **Share conservation.** In a run without `cancel_all` in which no modification or replacement
names `t`, the ledger of `t` balances throughout exactly when on every tick the cancels that the gate
lets through for `t` are not overdrawn. -/
theorem conserves_run (t : Token) (w : W) (es : List Event)
    (hes : ∀ e ∈ es, spares t e = true) :
    Machine.Throughout (step E) (Conserves t) (init E w) es ↔
      Machine.Along (step E) (Fits E t) (init E w) es := by
  refine Machine.throughout_iff_along (I := Spared t) (D := fun _ e => spares t e = true)
    ?_ ?_ (spared_init E t w) ?_ (Machine.along_of_forall hes)
  · intro s e hs he
    cases e with
    | setLogger => exact ⟨hs.keyed, ⟨hs.tracked.1, hs.tracked.2, hs.tracked.3⟩, hs.modify, hs.replace⟩
    | packet p => exact (spared_packet E hs he).1
    | marketLogic => exact (spared_marketLogic E hs).1
    | cancelAll => cases he
    | disconnect => exact ⟨hs.keyed, ⟨hs.tracked.1, hs.tracked.2, hs.tracked.3⟩, hs.modify, hs.replace⟩
  · intro s e hs he hc
    cases e with
    | setLogger => exact iff_of_true hc trivial
    | packet p => exact iff_of_true ((spared_packet E hs he).2 hc) trivial
    | marketLogic => exact (spared_marketLogic E hs).2 hc
    | cancelAll => cases he
    | disconnect => exact iff_of_true hc trivial
  · intro pre m post hout
    exact absurd hout (by simp [init])

/-- An order of 100 shares that is cut down to 40 and then cancelled, in one batch. -/
theorem conserves_cut_then_cancel :
    Machine.Throughout (step quietEnv) (Conserves (tokenOf 'a')) (init quietEnv ())
      (loggedIn ++ [enterPacket 'a' 100, cancelPacket 'a' 40, cancelPacket 'a' 0, .marketLogic]) :=
  (conserves_run quietEnv (tokenOf 'a') () _ (by decide +kernel)).mpr (by decide +kernel)

/-- Two full cancels of one order in one batch report its 100 shares twice. -/
theorem not_conserves_two_cancels :
    ¬ ∀ (W : Type) (E : Env W) (w : W) (es : List Event) (t : Token),
      (∀ e ∈ es, spares t e = true) → Conserves t (run E w es) := by
  intro h
  have hrun := h Unit quietEnv () (loggedIn ++ [enterPacket 'a' 100, cancelPacket 'a' 0,
    cancelPacket 'a' 0, .marketLogic]) (tokenOf 'a') (by decide +kernel)
  have hbal := conserves_iff.mp hrun (-100) (by decide +kernel)
  revert hbal
  decide +kernel

end OuchSession

end Evtsim
