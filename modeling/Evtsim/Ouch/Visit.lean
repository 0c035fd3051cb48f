import Evtsim.Ouch.Emission
import Evtsim.Ouch.Dead

/-!
# A visit of `execution_logic`, and what holds of every active order

`executionStep_of_*` say what a visit does, test by test: `expired` reads the clock first
(`firstReading`), then `still_active` reads it once more (`secondReading`).

`walk` is the loop up to one visit: it finds every order as the pass has found it, and what the pass
makes of an order is what the one visit makes of it.

`Each P` says that `P` holds of every active order. The functions of a session build few new orders out
of an old one; `KeptByPasses` lists those of the cancel, modify and execution passes, `KeptByAll` those of
a whole run. A property that is kept over these lists is an invariant of the passes and of the run.
-/

namespace Evtsim

open Wire Ouch Log Machine Session

namespace OuchSession

variable {W : Type} (E : Env W)

/-- A look at the clock keeps the time in force. -/
theorem Retimed.timeInForce {o o' : OuchOrder} (h : Retimed o o') : o'.timeInForce = o.timeInForce := by
  obtain ⟨r, st, rfl⟩ := h
  rfl

/-! ## A visit, test by test -/

section

variable (st : Pass W) {k : Key} {o : OuchOrder}

/-- A visit to an order that is gone does nothing. -/
theorem executionStep_of_none (h : st.1.activeOrders.lookup k = none) : executionStep E st k = st := by
  unfold executionStep
  rw [h]

/-- At a closed gate a visit only uses the environment. -/
theorem executionStep_of_closed (h : st.1.activeOrders.lookup k = some o)
    (hgate : (E.gate .execution st.1.env).1 = false) :
    executionStep E st k = (st.1.inEnv (E.gate .execution st.1.env).2, st.2) := by
  unfold executionStep
  rw [h]
  dsimp only
  rw [hgate]
  rfl

/-- The order after the first reading of the clock, with the answer of `expired`. -/
def firstReading (st : Pass W) (o : OuchOrder) : Bool × OuchOrder × W :=
  o.expired E (E.gate .execution st.1.env).2

/-- The order after the second reading, with the answer of `still_active`. -/
def secondReading (st : Pass W) (o : OuchOrder) : Bool × OuchOrder × W :=
  (firstReading E st o).2.1.stillActive E (firstReading E st o).2.2

/-- The first look at the clock changes the countdown and the state of the order at most. -/
theorem retimed_firstReading (st : Pass W) (o : OuchOrder) : Retimed o (firstReading E st o).2.1 :=
  retimed_expired E o _

/-- The second look at the clock changes the countdown and the state of the order at most. -/
theorem retimed_secondReading (st : Pass W) (o : OuchOrder) : Retimed o (secondReading E st o).2.1 :=
  (retimed_firstReading E st o).trans (retimed_stillActive E _ _)

variable (ho : st.1.activeOrders.lookup k = some o) (hgate : (E.gate .execution st.1.env).1 = true)

include ho hgate

/-- Time is up. -/
theorem executionStep_timeOut (h : (firstReading E st o).1 = true) :
    ∃ w m, m.token = o.token ∧ m.decrementQty = UInt32.ofInt o.remainingQty ∧ m.reason = .timeOut ∧
      executionStep E st k = ((st.1.withActive (st.1.activeOrders.insert k
        (firstReading E st o).2.1)).emit w (.orderCanceled m), st.2 ++ [k]) := by
  have hr := retimed_firstReading E st o
  unfold firstReading at h hr ⊢
  unfold executionStep
  rw [ho]
  dsimp only
  rw [hgate, h]
  exact ⟨_, _, hr.token, congrArg UInt32.ofInt hr.remainingQty, rfl, rfl⟩

/-- A visit to an order whose time is up cancels it. -/
theorem executionStep_of_expired (h : (firstReading E st o).1 = true) :
    ∃ w m, m.token = o.token ∧ m.decrementQty = UInt32.ofInt o.remainingQty ∧ executionStep E st k =
      ((st.1.withActive (st.1.activeOrders.insert k (firstReading E st o).2.1)).emit w
        (.orderCanceled m), st.2 ++ [k]) := by
  obtain ⟨w, m, htoken, hqty, -, hs⟩ := executionStep_timeOut E st ho hgate h
  exact ⟨w, m, htoken, hqty, hs⟩

/-- An IOC order with shares remaining. -/
theorem executionStep_immediate (h : (firstReading E st o).1 = false) (hioc : o.timeInForce = 0)
    (hleft : o.remainingQty ≠ 0) :
    ∃ w m, m.token = o.token ∧ m.decrementQty = UInt32.ofInt o.remainingQty ∧ m.reason = .ioc ∧
      executionStep E st k = ((st.1.withActive (st.1.activeOrders.insert k
        (firstReading E st o).2.1)).emit w (.orderCanceled m), st.2 ++ [k]) := by
  have hr := retimed_firstReading E st o
  unfold firstReading at h hr ⊢
  have htif : (o.expired E (E.gate .execution st.1.env).2).2.1.timeInForce = 0 :=
    hr.timeInForce.trans hioc
  have hleft' : (o.expired E (E.gate .execution st.1.env).2).2.1.remainingQty ≠ 0 :=
    fun h0 => hleft (hr.remainingQty.symm.trans h0)
  unfold executionStep
  rw [ho]
  dsimp only
  rw [hgate, h]
  simp only [Bool.not_true, Bool.false_eq_true, if_false, if_pos htif, if_pos hleft']
  exact ⟨_, _, hr.token, congrArg UInt32.ofInt hr.remainingQty, rfl, rfl⟩

/-- A visit cancels an immediate order that has shares left, if its time is not taken to be up. -/
theorem executionStep_of_ioc (h : (firstReading E st o).1 = false) (hioc : o.timeInForce = 0)
    (hleft : o.remainingQty ≠ 0) :
    ∃ w m, m.token = o.token ∧ m.decrementQty = UInt32.ofInt o.remainingQty ∧ executionStep E st k =
      ((st.1.withActive (st.1.activeOrders.insert k (firstReading E st o).2.1)).emit w
        (.orderCanceled m), st.2 ++ [k]) := by
  obtain ⟨w, m, htoken, hqty, -, hs⟩ := executionStep_immediate E st ho hgate h hioc hleft
  exact ⟨w, m, htoken, hqty, hs⟩

/-- An IOC order of which nothing remains. -/
theorem executionStep_of_ioc_zero (h : (firstReading E st o).1 = false) (hioc : o.timeInForce = 0)
    (hleft : o.remainingQty = 0) : executionStep E st k =
      ((st.1.withActive (st.1.activeOrders.insert k (firstReading E st o).2.1)).inEnv
        (firstReading E st o).2.2, st.2 ++ [k]) := by
  have hr := retimed_firstReading E st o
  unfold firstReading at h hr ⊢
  have htif : (o.expired E (E.gate .execution st.1.env).2).2.1.timeInForce = 0 :=
    hr.timeInForce.trans hioc
  have hleft' : ¬ (o.expired E (E.gate .execution st.1.env).2).2.1.remainingQty ≠ 0 :=
    not_not.mpr (hr.remainingQty.trans hleft)
  unfold executionStep
  rw [ho]
  dsimp only
  rw [hgate, h]
  simp only [Bool.not_true, Bool.false_eq_true, if_false, if_pos htif, if_neg hleft']
  rfl

/-- An order that is still active may be filled. -/
theorem executionStep_of_active (h : (firstReading E st o).1 = false) (hioc : o.timeInForce ≠ 0)
    (hact : (secondReading E st o).1 = true) : executionStep E st k =
      (constructOrderExecuted E ((st.1.withActive (st.1.activeOrders.insert k
        (secondReading E st o).2.1)).inEnv (secondReading E st o).2.2) k (secondReading E st o).2.1 (-1),
        st.2) := by
  have hr := retimed_firstReading E st o
  unfold secondReading at hact ⊢
  unfold firstReading at h hr hact ⊢
  have htif : (o.expired E (E.gate .execution st.1.env).2).2.1.timeInForce ≠ 0 :=
    fun h0 => hioc (hr.timeInForce.symm.trans h0)
  unfold executionStep
  rw [ho]
  dsimp only
  rw [hgate, h]
  simp only [Bool.not_true, Bool.false_eq_true, if_false, if_neg htif, hact, if_true,
    AList.insert_insert]
  rfl

/-- An order that is not active any more is finished. -/
theorem executionStep_of_inactive (h : (firstReading E st o).1 = false) (hioc : o.timeInForce ≠ 0)
    (hact : (secondReading E st o).1 = false) : executionStep E st k =
      (finish E.ouchOrder ((st.1.withActive (st.1.activeOrders.insert k (secondReading E st o).2.1)).inEnv
          (secondReading E st o).2.2) k (secondReading E st o).2.1, st.2 ++ [k]) := by
  have hr := retimed_firstReading E st o
  unfold secondReading at hact ⊢
  unfold firstReading at h hr hact ⊢
  have htif : (o.expired E (E.gate .execution st.1.env).2).2.1.timeInForce ≠ 0 :=
    fun h0 => hioc (hr.timeInForce.symm.trans h0)
  unfold executionStep
  rw [ho]
  dsimp only
  rw [hgate, h]
  simp only [Bool.not_true, Bool.false_eq_true, if_false, if_neg htif, hact, AList.insert_insert]
  rfl

end

/-- `expired` answers by the countdown that it leaves. -/
theorem remainTimeInForce_of_expired {o : OuchOrder} {w : W} (h : (o.expired E w).1 = false) :
    ¬ (o.expired E w).2.1.remainTimeInForce ≤ 0 := by
  unfold OuchOrder.expired at h ⊢
  split
  · rename_i hcount
    rw [if_pos hcount] at h
    exact of_decide_eq_false h
  · rename_i hcount
    rw [if_neg hcount] at h
    exact of_decide_eq_false h

/-- `expired()` leaves the state of the order alone. -/
theorem state_expired (o : OuchOrder) (w : W) : (o.expired E w).2.1.state = o.state := by
  obtain ⟨r, hr⟩ := o.expired_order E w
  rw [hr]

/-- An order with shares left is active unless its time is up or it is dead. -/
theorem stillActive_of_pos {o : OuchOrder} {w : W} (hpos : 0 < o.remainingQty) :
    (o.stillActive E w).1 = true ↔ (o.expired E w).1 = false ∧ o.state ≠ .dead := by
  unfold OuchOrder.stillActive
  rw [if_neg (Int.not_le.mpr hpos)]
  dsimp only
  rw [state_expired]
  rcases (o.expired E w).1 with _ | _
  · by_cases hdead : o.state = .dead
    · simp [hdead]
    · simp [hdead]
  · simp

/-- An order without shares is dead. -/
theorem stillActive_of_le {o : OuchOrder} {w : W} (hle : o.remainingQty ≤ 0) :
    o.stillActive E w = (false, { o with state := .dead }, w) := by
  unfold OuchOrder.stillActive
  rw [if_pos hle]

/-- Something remains of an order that is still active at the second reading. -/
theorem remainingQty_secondReading {st : Pass W} {o : OuchOrder}
    (h : (secondReading E st o).1 = true) : 0 < (secondReading E st o).2.1.remainingQty := by
  have hleft := OuchOrder.remainingQty_pos_of_stillActive h
  rwa [(retimed_secondReading E st o).remainingQty, ← (retimed_firstReading E st o).remainingQty]

/-- The active orders after a visit: as they were, or with one order that a reading of the clock has
rewritten, or that has been filled after the second reading. -/
theorem activeOrders_executionStep (st : Pass W) (k : Key) :
    (executionStep E st k).1.activeOrders = st.1.activeOrders ∨
      ∃ o o', st.1.activeOrders.lookup k = some o ∧
        (executionStep E st k).1.activeOrders = st.1.activeOrders.insert k o' ∧
        (o' = (firstReading E st o).2.1 ∨ o' = (secondReading E st o).2.1 ∨
          ∃ exe, 0 < exe ∧ exe ≤ (secondReading E st o).2.1.remainingQty ∧
            o' = { (secondReading E st o).2.1 with
              remainingQty := (secondReading E st o).2.1.remainingQty - exe
              executedQty := (secondReading E st o).2.1.executedQty + exe }) := by
  rcases ho : st.1.activeOrders.lookup k with _ | o
  · rw [executionStep_of_none E st ho]
    exact .inl rfl
  rcases hgate : (E.gate .execution st.1.env).1 with _ | _
  · rw [executionStep_of_closed E st ho hgate]
    exact .inl rfl
  right
  refine ⟨o, ?_⟩
  rcases hfirst : (firstReading E st o).1 with _ | _
  case true =>
    -- the time is up, so there is one look at the clock
    obtain ⟨w, m, -, -, hs⟩ := executionStep_of_expired E st ho hgate hfirst
    rw [hs]
    exact ⟨_, rfl, rfl, .inl rfl⟩
  by_cases hioc : o.timeInForce = 0
  · -- an immediate order has its one look too
    by_cases hleft : o.remainingQty = 0
    · rw [executionStep_of_ioc_zero E st ho hgate hfirst hioc hleft]
      exact ⟨_, rfl, rfl, .inl rfl⟩
    · obtain ⟨w, m, -, -, hs⟩ := executionStep_of_ioc E st ho hgate hfirst hioc hleft
      rw [hs]
      exact ⟨_, rfl, rfl, .inl rfl⟩
  rcases hsecond : (secondReading E st o).1 with _ | _
  · -- any other order is looked at twice, and filled if it is active
    rw [executionStep_of_inactive E st ho hgate hfirst hioc hsecond]
    exact ⟨_, rfl, rfl, .inr (.inl rfl)⟩
  · rw [executionStep_of_active E st ho hgate hfirst hioc hsecond]
    rcases constructOrderExecuted_cases E ((st.1.withActive (st.1.activeOrders.insert k
        (secondReading E st o).2.1)).inEnv (secondReading E st o).2.2) k
        (remainingQty_secondReading E hsecond) with ⟨w, hs⟩ | ⟨exe, w, m, h0, hle, -, -, hs⟩
    · rw [hs]
      exact ⟨_, rfl, rfl, .inr (.inl rfl)⟩
    · rw [hs]
      exact ⟨_, rfl, AList.insert_insert _, .inr (.inr ⟨exe, h0, hle, rfl⟩)⟩

/-- What a visit sends: it reports an order that is out of time, or an IOC order with shares remaining, or
it comes to an execution. -/
theorem mem_added_executionStep {st : Pass W} {k : Key} {m : Ouch.OutMsg}
    (hm : m ∈ added st.1.pendingOutMessages (executionStep E st k).1.pendingOutMessages) :
    ∃ o, st.1.activeOrders.lookup k = some o ∧ (E.gate .execution st.1.env).1 = true ∧
      ((∃ c, m = .orderCanceled c ∧ c.token = o.token ∧ c.reason = .timeOut ∧
          (firstReading E st o).1 = true) ∨
        (∃ c, m = .orderCanceled c ∧ c.token = o.token ∧ c.reason = .ioc ∧
          (firstReading E st o).1 = false ∧ o.timeInForce = 0) ∨
        (∃ x, m = .executed x ∧ x.token = o.token ∧ (firstReading E st o).1 = false ∧ o.timeInForce ≠ 0 ∧
          (secondReading E st o).1 = true)) := by
  -- the branches in which nothing is sent
  have hquiet : ¬ (executionStep E st k).1.pendingOutMessages = st.1.pendingOutMessages := by
    intro hsame
    rw [hsame, added_self] at hm
    exact List.not_mem_nil hm
  rcases ho : st.1.activeOrders.lookup k with _ | o
  · exact absurd (by rw [executionStep_of_none E st ho]) hquiet
  rcases hgate : (E.gate .execution st.1.env).1 with _ | _
  · exact absurd (by rw [executionStep_of_closed E st ho hgate]; rfl) hquiet
  refine ⟨o, rfl, rfl, ?_⟩
  -- in every other branch `m` is the one message sent
  have hone : ∀ {A : KeyedMap Key OuchOrder} {w : W} {m' : Ouch.OutMsg} {done : List Key},
      executionStep E st k = ((st.1.withActive A).emit w m', done) → m = m' := by
    intro A w m' done hstep
    rw [hstep, emit_out, withActive_out, added_append] at hm
    exact List.mem_singleton.mp hm
  rcases hfirst : (firstReading E st o).1 with _ | _
  case true =>
    obtain ⟨w, c, htoken, -, hreason, hs⟩ := executionStep_timeOut E st ho hgate hfirst
    exact .inl ⟨c, hone hs, htoken, hreason, rfl⟩
  by_cases hioc : o.timeInForce = 0
  · by_cases hleft : o.remainingQty = 0
    · exact absurd (by rw [executionStep_of_ioc_zero E st ho hgate hfirst hioc hleft]; rfl) hquiet
    · obtain ⟨w, c, htoken, -, hreason, hs⟩ :=
        executionStep_immediate E st ho hgate hfirst hioc hleft
      exact .inr (.inl ⟨c, hone hs, htoken, hreason, rfl, hioc⟩)
  rcases hsecond : (secondReading E st o).1 with _ | _
  · exact absurd (by rw [executionStep_of_inactive E st ho hgate hfirst hioc hsecond]; rfl) hquiet
  · have hs := executionStep_of_active E st ho hgate hfirst hioc hsecond
    rcases constructOrderExecuted_cases E ((st.1.withActive (st.1.activeOrders.insert k
        (secondReading E st o).2.1)).inEnv (secondReading E st o).2.2) k
        (remainingQty_secondReading E hsecond) with ⟨w, hnone⟩ | ⟨exe, w, x, -, -, htoken, -, hexe⟩
    · exact absurd (by rw [hs, hnone]; rfl) hquiet
    · rw [hexe] at hs
      exact .inr (.inr ⟨x, hone hs, htoken.trans (retimed_secondReading E st o).token, rfl, hioc, rfl⟩)

/-! ## The walk over the active orders -/

/-- The walk of an execution pass, as far as it has met the keys `ks`. -/
def walk (s : OuchSession W) (ks : List Key) : Pass W :=
  Machine.run (executionStep E) ((executionStart E s).1, []) ks

/-- What a pass shows of a key: the order held under it, and whether it is collected. -/
def standing (k : Key) (st : Pass W) : Option OuchOrder × Prop :=
  (st.1.activeOrders.lookup k, k ∈ st.2)

/-- A visit shows nothing under other keys. -/
theorem standing_executionStep (st : Pass W) {k k' : Key} (hne : k' ≠ k) :
    standing k (executionStep E st k') = standing k st := by
  have hact : ∀ o, (st.1.activeOrders.insert k' o).lookup k = st.1.activeOrders.lookup k :=
    fun o => AList.lookup_insert_ne hne.symm
  have hdone : (k ∈ st.2 ++ [k']) = (k ∈ st.2) := propext (KeyedMap.mem_append_of_ne hne)
  rcases executionStep_cases E st k' with ⟨-, hs⟩ | ⟨o, -, ⟨-, w, hs⟩ | ⟨o', w, -, ⟨m, -, -, hs⟩ |
    ⟨-, hs⟩ | ⟨exe, m, -, -, -, -, hs⟩ | hs | hs⟩⟩ <;> rw [hs]
  · rfl
  · exact Prod.ext (hact o') hdone
  · exact Prod.ext (hact o') hdone
  · exact Prod.ext (hact _) rfl
  · exact Prod.ext (hact o') rfl
  · exact Prod.ext (hact o') hdone

/-- Visits to other orders leave an order as it stands. -/
theorem standing_run_of_notMem {st : Pass W} {k : Key} {ks : List Key} (hk : k ∉ ks) :
    standing k (Machine.run (executionStep E) st ks) = standing k st :=
  view_run_of_notMem (v := standing) (I := fun _ => True) (fun _ _ _ => trivial)
    (fun st _ _ _ hne => standing_executionStep E st hne) trivial hk

/-- No order is visited twice in a tick. -/
theorem nodup_visits (s : OuchSession W) : (executionStart E s).2.Nodup :=
  (E.visit s.activeOrders.keys s.env).1.property.nodup_iff.mpr s.activeOrders.keys_nodup

/-- The orders visited are those of the book. -/
theorem mem_visits {s : OuchSession W} {k : Key} : k ∈ (executionStart E s).2 ↔ k ∈ s.activeOrders :=
  (E.visit s.activeOrders.keys s.env).1.property.mem_iff.trans AList.mem_keys

section

variable {s : OuchSession W} {pre post : List Key} {k : Key}
  (hsplit : (executionStart E s).2 = pre ++ k :: post)

include hsplit

/-- An order is visited neither before nor after its visit. -/
theorem notMem_of_split : k ∉ pre ∧ k ∉ post := by
  have hnodup := nodup_visits E s
  rw [hsplit] at hnodup
  obtain ⟨-, htail, hapart⟩ := List.nodup_append.mp hnodup
  refine ⟨fun hpre => hapart k hpre k List.mem_cons_self rfl, ?_⟩
  exact (List.nodup_cons.mp htail).1

/-- The walk finds every order as the pass has found it. -/
theorem standing_walk : standing k (walk E s pre) = standing k (s, []) :=
  standing_run_of_notMem E (notMem_of_split E hsplit).1

/-- At its visit an order is as it was at the start of the pass. -/
theorem lookup_walk : (walk E s pre).1.activeOrders.lookup k = s.activeOrders.lookup k :=
  congrArg Prod.fst (standing_walk E hsplit)

/-- What the pass leaves of an order is what its visit leaves. -/
theorem lookup_executionLogic : (executionLogic E s).activeOrders.lookup k =
    (finishPass (executionStep E (walk E s pre) k)).activeOrders.lookup k := by
  have hend : standing k (walk E s (executionStart E s).2) =
      standing k (executionStep E (walk E s pre) k) := by
    rw [hsplit, walk, run_append, run_cons]
    exact standing_run_of_notMem E (notMem_of_split E hsplit).2
  have hact := congrArg Prod.fst hend
  have hdone : (k ∈ (walk E s (executionStart E s).2).2) = (k ∈ (executionStep E (walk E s pre) k).2) :=
    congrArg Prod.snd hend
  show (finishPass (walk E s (executionStart E s).2)).activeOrders.lookup k = _
  by_cases hk : k ∈ (walk E s (executionStart E s).2).2
  · rw [lookup_finishPass_of_mem hk, lookup_finishPass_of_mem (hdone ▸ hk)]
  · rw [lookup_finishPass_of_notMem hk, lookup_finishPass_of_notMem (hdone ▸ hk)]
    exact hact

/-- What a visit sends, the pass sends. -/
theorem added_visit_subset :
    added (walk E s pre).1.pendingOutMessages (executionStep E (walk E s pre) k).1.pendingOutMessages ⊆
      added s.pendingOutMessages (executionLogic E s).pendingOutMessages := by
  have hall := added_step_subset (g := fun st : Pass W => st.1.pendingOutMessages)
    (emits_executionStep E) ((executionStart E s).1, []) pre k post
  rw [← hsplit] at hall
  exact hall

end

/-- What a pass sends, a visit sends. -/
theorem exists_visit {s : OuchSession W} {m : Ouch.OutMsg}
    (hm : m ∈ added s.pendingOutMessages (executionLogic E s).pendingOutMessages) :
    ∃ pre k post, (executionStart E s).2 = pre ++ k :: post ∧
      m ∈ added (walk E s pre).1.pendingOutMessages
        (executionStep E (walk E s pre) k).1.pendingOutMessages :=
  exists_of_mem_added_run (g := fun st : Pass W => st.1.pendingOutMessages) (emits_executionStep E)
    (s := ((executionStart E s).1, [])) hm

/-! ## What holds of every active order -/

/-- `P` holds of every order whose key is not in `done`. -/
def Each (P : Key → OuchOrder → Prop) (m : KeyedMap Key OuchOrder) (done : List Key) : Prop :=
  ∀ k o, m.lookup k = some o → P k o ∨ k ∈ done

/-- The cancel, modify and execution passes make no order without `P` of one with `P`. -/
structure KeptByPasses (P : Key → OuchOrder → Prop) : Prop where
  cut : ∀ {k o} (n : ℕ), P k o → P k { o with remainingQty := n }
  modified : ∀ {k o side} {n : ℤ}, 0 < n → P k o → P k { o with side := side, remainingQty := n }
  timed : ∀ {k o} w, P k o → P k (o.expired E w).2.1
  marked : ∀ {k o}, P k o → P k { o with state := .dead }
  filled : ∀ {k o} {exe : ℤ}, 0 < exe → exe ≤ o.remainingQty → P k o →
    P k { o with remainingQty := o.remainingQty - exe, executedQty := o.executedQty + exe }

/-- New and replaced orders have `P` as well. -/
structure KeptByAll (P : Key → OuchOrder → Prop) : Prop extends KeptByPasses E P where
  entered : ∀ d eo, P eo.token.str (OuchOrder.parseOrder d eo)
  replaced : ∀ o ro, replaceCancels ro o.executedQty = false → P ro.newToken.str (replaced o ro)

variable {P : Key → OuchOrder → Prop}

/-- An empty book has nothing to show. -/
theorem each_empty : Each P ∅ [] := by
  intro k o h
  rw [AList.lookup_empty] at h
  cases h

/-- The new entry has to have the property. -/
theorem Each.insert {m : KeyedMap Key OuchOrder} {done : List Key} (h : Each P m done) {k : Key}
    {o : OuchOrder} (ho : P k o) : Each P (m.insert k o) done := by
  intro k' o' hlook
  rw [KeyedMap.lookup_insert] at hlook
  split at hlook
  · rename_i hk
    cases hlook
    exact .inl (hk ▸ ho)
  · exact h k' o' hlook

/-- The insertion of a subscript, under a key that is collected then. -/
theorem Each.touch {m : KeyedMap Key OuchOrder} {done : List Key} (h : Each P m done) (k : Key)
    (d : OuchOrder) : Each P (KeyedMap.touch k d m) (done ++ [k]) := by
  intro k' o hlook
  by_cases hk : k' = k
  · exact .inr (List.mem_append_right _ (List.mem_singleton.mpr hk))
  · rw [KeyedMap.lookup_touch d m (.inr hk)] at hlook
    exact (h k' o hlook).imp id (List.mem_append_left _)

/-- An order that is not collected has the property. -/
theorem Each.get {m : KeyedMap Key OuchOrder} (h : Each P m []) {k : Key} {o : OuchOrder}
    (ho : m.lookup k = some o) : P k o :=
  (h k o ho).resolve_right List.not_mem_nil

/-- At the end of a pass the collected orders go and the rest have the property. -/
theorem Each.finishPass {st : Pass W} {done : List Key} (h : Each P st.1.activeOrders done)
    (hdone : ∀ k ∈ done, k ∈ st.2) : Each P (finishPass st).activeOrders [] := by
  intro k o hlook
  by_cases hk : k ∈ st.2
  · rw [lookup_finishPass_of_mem hk] at hlook
    cases hlook
  · rw [lookup_finishPass_of_notMem hk] at hlook
    exact .inl ((h k o hlook).resolve_right fun hmem => hk (hdone k hmem))

section

variable {E}

/-- A look at the clock keeps the property. -/
theorem KeptByPasses.stillActive (hP : KeptByPasses E P) {k : Key} {o : OuchOrder} (w : W)
    (h : P k o) : P k (o.stillActive E w).2.1 := by
  unfold OuchOrder.stillActive
  split
  · exact hP.marked h
  dsimp only
  split
  · exact hP.marked (hP.timed w h)
  · exact hP.timed w h

/-- A queued cancel keeps the property for all orders. -/
theorem KeptByPasses.cancelStep (hP : KeptByPasses E P) {st : Pass W}
    (h : Each P st.1.activeOrders []) (co : OuchCancelOrderReq) :
    Each P (cancelStep E st co).1.activeOrders [] := by
  rcases cancelStep_cases E st co with ⟨-, w, m, hs⟩ | ⟨o, ho, -, ⟨-, w, m, -, -, hs⟩ |
    ⟨-, -, w, hs⟩ | ⟨-, -, w, m, -, -, hs⟩⟩ <;> rw [hs]
  · exact h
  · exact h
  · exact h
  · exact h.insert (hP.cut _ (h.get ho))

/-- A queued modification keeps the property for all orders. -/
theorem KeptByPasses.modifyStep (hP : KeptByPasses E P) {st : Pass W}
    (h : Each P st.1.activeOrders []) (mo : OuchModifyOrderReq) :
    Each P (modifyStep E st mo).1.activeOrders [] := by
  rcases modifyStep_cases E st mo with ⟨-, hs⟩ | ⟨o, ho, -, ⟨-, w, m, -, hs⟩ | ⟨hlt, w, m, -, hs⟩⟩ <;>
    rw [hs]
  · exact h
  · exact h
  · exact h.insert (hP.modified (Int.sub_pos.mpr hlt) (h.get ho))

/-- A visit keeps the property for all orders. -/
theorem KeptByPasses.executionStep (hP : KeptByPasses E P) {st : Pass W}
    (h : Each P st.1.activeOrders []) (k : Key) :
    Each P (executionStep E st k).1.activeOrders [] := by
  rcases activeOrders_executionStep E st k with hs | ⟨o, o', ho, hs, ho'⟩
  · rw [hs]
    exact h
  have hfirst : P k (firstReading E st o).2.1 := hP.timed _ (h.get ho)
  have hsecond : P k (secondReading E st o).2.1 := hP.stillActive _ hfirst
  rw [hs]
  apply h.insert
  rcases ho' with rfl | rfl | ⟨exe, h0, hle, rfl⟩
  · exact hfirst
  · exact hsecond
  · exact hP.filled h0 hle hsecond

/-- The passes before the replacements keep the property for all orders. -/
theorem KeptByPasses.beforeReplace (hP : KeptByPasses E P) {s : OuchSession W}
    (h : Each P s.activeOrders []) : Each P (beforeReplace E s).activeOrders [] := by
  have hbeat : Each P (heartbeatLogic E s).activeOrders [] := by
    rw [(idle_heartbeatLogic E s).activeOrders]
    exact h
  have hcancel := run_invariant (f := OuchSession.cancelStep E)
    (I := fun st : Pass W => Each P st.1.activeOrders []) (fun st co hst => hP.cancelStep hst co)
    (s := (heartbeatLogic E s, [])) hbeat (heartbeatLogic E s).pendingCancel
  have hmodify := run_invariant (f := OuchSession.modifyStep E)
    (I := fun st : Pass W => Each P st.1.activeOrders []) (fun st mo hst => hP.modifyStep hst mo)
    (s := (cancelLogic E (heartbeatLogic E s), []))
    (Each.finishPass (W := W) hcancel (List.forall_mem_nil _))
    (cancelLogic E (heartbeatLogic E s)).pendingModify
  exact hmodify.finishPass (List.forall_mem_nil _)

/-- Any number of visits keep the property for all orders. -/
theorem KeptByPasses.walk (hP : KeptByPasses E P) {s : OuchSession W}
    (h : Each P s.activeOrders []) (ks : List Key) : Each P (walk E s ks).1.activeOrders [] :=
  run_invariant (f := OuchSession.executionStep E)
    (I := fun st : Pass W => Each P st.1.activeOrders []) (fun _ k hst => hP.executionStep hst k) h ks

/-- An execution pass keeps the property for all orders. -/
theorem KeptByPasses.executionLogic (hP : KeptByPasses E P) {s : OuchSession W}
    (h : Each P s.activeOrders []) : Each P (executionLogic E s).activeOrders [] := by
  exact (hP.walk h (executionStart E s).2).finishPass (List.forall_mem_nil _)

/-- A default-constructed order is collected, or replaced by one that has `P`. -/
theorem KeptByAll.replaceStep (hP : KeptByAll E P) {st : Pass W} (h : Each P st.1.activeOrders st.2)
    (ro : OuchReplaceOrderReq) :
    Each P (replaceStep E st ro).1.activeOrders (replaceStep E st ro).2 := by
  rcases replaceStep_cases E st ro with ⟨-, w, m, -, -, hs⟩ | ⟨happly, w, m, A, -, -, hA, hs⟩ <;>
    rw [hs]
  · exact h.touch _ _
  · intro k o hlook
    have hlook' := (hA k).symm.trans hlook
    split at hlook'
    · cases hlook'
    split at hlook'
    · rename_i hk
      cases hlook'
      exact .inl (hk ▸ hP.replaced _ ro happly)
    · exact h k o hlook'

/-- The passes before the last keep the property for all orders. -/
theorem KeptByAll.beforeExecution (hP : KeptByAll E P) {s : OuchSession W}
    (h : Each P s.activeOrders []) : Each P (replaceLogic E (beforeReplace E s)).activeOrders [] := by
  have hrun := run_invariant (f := OuchSession.replaceStep E)
    (I := fun st : Pass W => Each P st.1.activeOrders st.2) (fun st ro hst => hP.replaceStep hst ro)
    (s := (OuchSession.beforeReplace E s, [])) (hP.beforeReplace h)
    (OuchSession.beforeReplace E s).pendingReplace
  exact hrun.finishPass fun _ hk => hk

/-- Every event keeps the property for all orders. -/
theorem KeptByAll.step (hP : KeptByAll E P) {s : OuchSession W} (h : Each P s.activeOrders [])
    (e : Event) : Each P (step E s e).activeOrders [] := by
  cases e with
  | setLogger => exact h
  | packet p =>
    rcases step_packet E s p with ⟨-, hs⟩ | ⟨r, -, -, hs⟩
    · rw [hs]
      exact h
    rw [hs]
    rcases handle_cases E s r with ⟨hidle, -⟩ | ⟨eo, w, d, m, -, -, -, -, hs⟩ | ⟨mo, w, -, -, -, hs⟩ |
      ⟨ro, w, -, -, hs⟩ | ⟨co, w, -, -, -, hs⟩
    · rw [hidle.activeOrders]
      exact h
    · rw [hs]
      exact h.insert (hP.entered d eo)
    all_goals rw [hs]; exact h
  | marketLogic => exact hP.executionLogic (hP.beforeExecution h)
  | cancelAll => exact each_empty
  | disconnect => exact h

/-- Between events `P` holds of every active order. -/
theorem KeptByAll.run (hP : KeptByAll E P) (w : W) (es : List Event) :
    Each P (run E w es).activeOrders [] :=
  run_invariant (I := fun s : OuchSession W => Each P s.activeOrders [])
    (fun _ e h => hP.step h e) each_empty es

end

end OuchSession

end Evtsim
