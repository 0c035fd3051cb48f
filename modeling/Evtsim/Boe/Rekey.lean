import Evtsim.Boe.Steps

/-!
# One modification in `boe_session::modify_logic`

An applied modification moves its order to another key of `active_orders`. `Rekeys` says what the
request asks for: the order is held as the request wants it and every other order stays where and as it
is. `rekeys_iff` says exactly when the loop body does that, whatever the memory holds from which it
default-constructs orders: when the new token is free.
-/

namespace Evtsim

open Wire Boe Session

/-- The surroundings with `c` in the memory that BOE orders are built in. -/
def Env.inMemory {W : Type} (E : Env W) (c : BoeOrder) : Env W :=
  { E with rawBoeOrder := fun w => (c, (E.rawBoeOrder w).2) }

namespace BoeSession

variable {W : Type} (E : Env W)

/-- The loop body does what `mo` asks of the order `o` that it finds. An order whose key has been
collected counts as gone, as it is at the end of the pass. -/
structure Rekeys (st : Pass W) (mo : BoeModifyOrderReq) (o : BoeOrder) : Prop where
  /-- The order is held under the new token, or gone because enough of it has been executed, and the
  message describes it. -/
  target : ∃ o' : BoeOrder, o'.price = mo.price ∧ o'.side = mo.side ∧
    o'.firm = strncpy mo.clearingFirm ∧ o'.executedQty = o.executedQty ∧ o'.orderID = o.orderID ∧
    ((finishPass (modifyStep E st mo)).activeOrders.lookup mo.token.str = some o' ∨
      (finishPass (modifyStep E st mo)).activeOrders.lookup mo.token.str = none ∧
        (mo.qty.toNat : ℤ) ≤ o.executedQty) ∧
    ∃ m, (modifyStep E st mo).1.pendingOutMessages =
      st.1.pendingOutMessages ++ [.orderModified m] ∧ Describes m o'
  /-- Every other order is held under its key, which is not the new token. -/
  others : ∀ k x, k ≠ mo.origToken.str → (finishPass st).activeOrders.lookup k = some x →
    k ≠ mo.token.str ∧ (finishPass (modifyStep E st mo)).activeOrders.lookup k = some x

/-- The new token is another one than the old, no order is held under it, and it has not been collected
unless enough of the order has been executed; and the token that is collected in that case is not that
of another order. -/
structure Free (st : Pass W) (mo : BoeModifyOrderReq) (o : BoeOrder) : Prop where
  differs : mo.token.str ≠ mo.origToken.str
  vacant : mo.token.str ∈ st.1.activeOrders → mo.token.str ∈ st.2
  uncollected : mo.token.str ∈ st.2 → (mo.qty.toNat : ℤ) ≤ o.executedQty
  own : (mo.qty.toNat : ℤ) ≤ o.executedQty → o.token.str ≠ mo.origToken.str →
    o.token.str ∈ st.1.activeOrders → o.token.str ∈ st.2

instance (st : Pass W) (mo : BoeModifyOrderReq) (o : BoeOrder) : Decidable (Free st mo o) :=
  decidable_of_iff (mo.token.str ≠ mo.origToken.str ∧
    (mo.token.str ∈ st.1.activeOrders → mo.token.str ∈ st.2) ∧
    (mo.token.str ∈ st.2 → (mo.qty.toNat : ℤ) ≤ o.executedQty) ∧
    ((mo.qty.toNat : ℤ) ≤ o.executedQty → o.token.str ≠ mo.origToken.str →
      o.token.str ∈ st.1.activeOrders → o.token.str ∈ st.2))
    ⟨fun ⟨h₁, h₂, h₃, h₄⟩ => ⟨h₁, h₂, h₃, h₄⟩, fun ⟨h₁, h₂, h₃, h₄⟩ => ⟨h₁, h₂, h₃, h₄⟩⟩

/-- What is collected behind the step. -/
theorem done_modifyStep {st : Pass W} {mo : BoeModifyOrderReq} {o : BoeOrder}
    (ho : st.1.activeOrders.lookup mo.origToken.str = some o) (k : Key) :
    k ∈ (modifyStep E st mo).2 ↔
      k ∈ st.2 ∨ (mo.qty.toNat : ℤ) ≤ o.executedQty ∧ k = o.token.str := by
  rcases modifyStep_cases E st mo with ⟨hnot, -⟩ | ⟨o', ho', w, A, bo, m, -, -, -, hs⟩
  · exact absurd (KeyedMap.mem_of_lookup ho) hnot
  obtain rfl : o' = o := Option.some.inj (ho'.symm.trans ho)
  rw [hs]
  by_cases hle : (mo.qty.toNat : ℤ) ≤ o'.executedQty
  · simp only [hle, if_true, List.mem_append, List.mem_singleton, true_and]
  · simp only [hle, if_false, false_and, or_false]

/-- With equal tokens the order that is held and described is a default-constructed one, which need
not have the price of the request. -/
theorem not_rekeys_same_token {st : Pass W} {mo : BoeModifyOrderReq} {o : BoeOrder}
    (ho : st.1.activeOrders.lookup mo.origToken.str = some o)
    (hsame : mo.token.str = mo.origToken.str) :
    ¬ Rekeys (E.inMemory { zeroBoeOrder with price := mo.price + 1 }) st mo o := by
  rintro ⟨⟨o', hprice, -, -, -, -, -, m, hout, hm⟩, -⟩
  rcases modifyStep_cases (E.inMemory { zeroBoeOrder with price := mo.price + 1 }) st mo with
    ⟨hnot, -⟩ | ⟨o'', ho'', w, A, bo, m', hm', hbo, -, hs⟩
  · exact hnot (KeyedMap.mem_of_lookup ho)
  rw [hs] at hout
  have hmsg : m' = m := by
    have hlast := List.append_cancel_left hout
    injection hlast with hhead
    injection hhead
  rcases hbo with ⟨hne, -⟩ | ⟨-, w', hdefault⟩
  · exact hne hsame
  · have hbad : mo.price = mo.price + 1 := by
      calc mo.price = m.price := by rw [hm.price, hprice]
        _ = bo.price := by rw [← hmsg, hm'.price]
        _ = mo.price + 1 := by rw [hdefault]; rfl
    have hnat := congrArg UInt64.toNat hbad
    rw [UInt64.toNat_add] at hnat
    have hlt := mo.price.toNat_lt
    have hone : (1 : UInt64).toNat = 1 := rfl
    omega

/-- **A modification re-keys without loss**, whatever the memory holds, exactly when its new token is
free. -/
theorem rekeys_iff {st : Pass W} {mo : BoeModifyOrderReq} {o : BoeOrder}
    (ho : st.1.activeOrders.lookup mo.origToken.str = some o) :
    (∀ c, Rekeys (E.inMemory c) st mo o) ↔ Free st mo o := by
  constructor
  · intro h
    have hdiffers : mo.token.str ≠ mo.origToken.str := fun hsame =>
      not_rekeys_same_token E ho hsame (h _)
    -- one filling of the memory is enough for the other conditions
    obtain ⟨⟨o', -, -, -, -, -, hheld, -⟩, hothers⟩ := h zeroBoeOrder
    refine ⟨hdiffers, ?_, ?_, ?_⟩
    · intro hact
      by_contra hdone
      obtain ⟨x, hx⟩ := KeyedMap.mem_iff_lookup.mp hact
      exact (hothers _ x hdiffers (lookup_finishPass_eq_some.mpr ⟨hdone, hx⟩)).1 rfl
    · intro hdone
      rw [lookup_finishPass_of_mem ((done_modifyStep _ ho _).mpr (.inl hdone))] at hheld
      rcases hheld with hsome | ⟨-, hle⟩
      · cases hsome
      · exact hle
    · intro hle hne hact
      by_contra hdone
      obtain ⟨x, hx⟩ := KeyedMap.mem_iff_lookup.mp hact
      have hkept := (hothers _ x hne (lookup_finishPass_eq_some.mpr ⟨hdone, hx⟩)).2
      exact (lookup_finishPass_eq_some.mp hkept).1 ((done_modifyStep _ ho _).mpr (.inr ⟨hle, rfl⟩))
  · intro hfree c
    rcases modifyStep_cases (E.inMemory c) st mo with
      ⟨hnot, -⟩ | ⟨o'', ho'', w, A, bo, m, hm, hbo, hA, hs⟩
    · exact absurd (KeyedMap.mem_of_lookup ho) hnot
    obtain rfl : o'' = o := Option.some.inj (ho''.symm.trans ho)
    -- the tokens differ, so no default-constructed order gets in between
    obtain rfl : bo = modified o'' mo := (hbo.resolve_right fun h => hfree.differs h.1).2
    have hact : ∀ k, (modifyStep (E.inMemory c) st mo).1.activeOrders.lookup k =
        if k = mo.token.str then some (modified o'' mo)
        else if k = mo.origToken.str then none else st.1.activeOrders.lookup k := by
      rw [hs]
      exact hA
    refine ⟨⟨modified o'' mo, rfl, rfl, rfl, rfl, rfl, ?_, m, ?_, hm⟩, ?_⟩
    · by_cases hdone : mo.token.str ∈ (modifyStep (E.inMemory c) st mo).2
      · rw [lookup_finishPass_of_mem hdone]
        rcases (done_modifyStep _ ho _).mp hdone with hold | ⟨hle, -⟩
        · exact .inr ⟨rfl, hfree.uncollected hold⟩
        · exact .inr ⟨rfl, hle⟩
      · rw [lookup_finishPass_of_notMem hdone, hact, if_pos rfl]
        exact .inl rfl
    · rw [hs]
      rfl
    · intro k x hk hx
      obtain ⟨hkeep, hx⟩ := lookup_finishPass_eq_some.mp hx
      have hne : k ≠ mo.token.str := by
        rintro rfl
        exact hkeep (hfree.vacant (KeyedMap.mem_of_lookup hx))
      refine ⟨hne, lookup_finishPass_eq_some.mpr ⟨?_, ?_⟩⟩
      · intro hdone
        rcases (done_modifyStep _ ho _).mp hdone with hold | ⟨hle, rfl⟩
        · exact hkeep hold
        · exact hkeep (hfree.own hle hk (KeyedMap.mem_of_lookup hx))
      · rw [hact, if_neg hne, if_neg hk, hx]

/-- The order of one token moves to a token that nothing is held under. -/
theorem rekeys_to_new_token :
    ∃ o, ∀ c, Rekeys (quietEnv.inMemory c) (modifyStart quietEnv (run quietEnv ()
        [newPacket 'a' [100, 0, 0, 0], modifyPacket 'a' 'b' [50, 0, 0, 0]]))
      (modifyReq 'a' 'b' [50, 0, 0, 0]) o := by
  obtain ⟨o, ho⟩ : ∃ o, (modifyStart quietEnv (run quietEnv () [newPacket 'a' [100, 0, 0, 0],
      modifyPacket 'a' 'b' [50, 0, 0, 0]])).1.activeOrders.lookup (tokenOf 'a').str = some o :=
    KeyedMap.mem_iff_lookup.mp (by decide +kernel)
  have hexecuted : ((modifyStart quietEnv (run quietEnv () [newPacket 'a' [100, 0, 0, 0],
      modifyPacket 'a' 'b' [50, 0, 0, 0]])).1.activeOrders.lookup (tokenOf 'a').str).map
        (fun o => o.executedQty) = some 0 := by
    decide +kernel
  rw [ho] at hexecuted
  refine ⟨o, (rekeys_iff quietEnv ho).mpr ⟨by decide, ?_, ?_, ?_⟩⟩
  · intro h
    exact absurd h (by decide +kernel)
  · intro h
    exact absurd h List.not_mem_nil
  · intro h
    have hzero : o.executedQty = 0 := Option.some.inj hexecuted
    rw [hzero] at h
    exact absurd h (by decide)

/-- An order that keeps its token is replaced by a default-constructed one. -/
theorem not_rekeys_in_place :
    ¬ ∀ (W : Type) (E : Env W) (w : W) (es : List Event) (pre : List BoeModifyOrderReq)
        (mo : BoeModifyOrderReq) (post : List BoeModifyOrderReq) (o : BoeOrder),
      (modifyStart E (run E w es)).1.pendingModify = pre ++ mo :: post →
      (Machine.run (modifyStep E) (modifyStart E (run E w es)) pre).1.activeOrders.lookup
        mo.origToken.str = some o →
      Rekeys E (Machine.run (modifyStep E) (modifyStart E (run E w es)) pre) mo o := by
  intro h
  have hpass := h Unit quietEnv () [newPacket 'a' [100, 0, 0, 0], modifyPacket 'a' 'a' [50, 0, 0, 0]]
    [] (modifyReq 'a' 'a' [50, 0, 0, 0]) []
  obtain ⟨o, ho⟩ := KeyedMap.mem_iff_lookup.mp (show (tokenOf 'a').str ∈ (modifyStart quietEnv
    (run quietEnv () [newPacket 'a' [100, 0, 0, 0], modifyPacket 'a' 'a' [50, 0, 0, 0]])).1.activeOrders
      by decide +kernel)
  obtain ⟨⟨o', -, hside, -, -, -, hheld, -⟩, -⟩ := hpass o (by decide +kernel) ho
  -- the order that is held has the side that the memory gives it
  have hdefault : ((finishPass (modifyStep quietEnv (modifyStart quietEnv (run quietEnv ()
      [newPacket 'a' [100, 0, 0, 0], modifyPacket 'a' 'a' [50, 0, 0, 0]]))
      (modifyReq 'a' 'a' [50, 0, 0, 0]))).activeOrders.lookup (tokenOf 'a').str).map (fun o => o.side) =
        some 0 := by
    decide +kernel
  rcases hheld with hheld | ⟨hgone, -⟩
  · have hzero := (congrArg (Option.map fun o => o.side) hheld).symm.trans hdefault
    rw [Option.map_some, hside] at hzero
    exact absurd (Option.some.inj hzero) (by decide)
  · have hnone := (congrArg (Option.map fun o => o.side) hgone).symm.trans hdefault
    cases hnone

end BoeSession

end Evtsim
