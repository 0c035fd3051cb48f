import Evtsim.Boe.Filling

/-!
# Execution passes in both sessions

What the two sessions have in common: a pass moves shares from what remains to what is executed, and an
order that nothing disturbs fills up.
-/

namespace Evtsim

open Wire Session

section

variable {W : Type} (E : Env W)

/-- **An execution pass moves shares**, it never makes or loses any. -/
theorem moves_shares :
    (∀ s : OuchSession W, OuchSession.KeysAgree s.activeOrders →
      (∀ k o, s.activeOrders.lookup k = some o → 0 ≤ o.remainingQty ∧ o.remainingQty ≤ 1000000) →
      OuchSession.MovesShares s (OuchSession.executionLogic E s)) ∧
    ∀ s : BoeSession W, BoeSession.KeysAgree s.activeOrders →
      BoeSession.MovesShares s (BoeSession.executionLogic E s) := by
  constructor
  · intro s hk hbound
    refine ⟨fun k o ho => ?_, fun k hmem => OuchSession.executionLogic_elsewhere E hk hmem⟩
    obtain ⟨h0, hle⟩ := hbound k o ho
    exact OuchSession.fate E hk ho h0 hle
  · intro s hk
    exact ⟨fun k o ho => BoeSession.fate E hk ho,
      fun k hmem => BoeSession.executionLogic_elsewhere E hk hmem⟩

/-- **An undisturbed order is filled completely and exactly** under the default behaviours, whatever
`rand()` answers. -/
theorem undisturbed_filledUp (hgate : ∀ w, (E.gate .execution w).1 = true)
    (hqty : ∀ w, (E.executionQty w).1 = -1) :
    (∀ (s : OuchSession W) (eo : Ouch.EnterOrder) (d : OuchOrder), OuchSession.NothingPending s →
      s.activeOrders.lookup eo.token.str = some (OuchOrder.parseOrder d eo) → eo.minQty = 0 →
      (eo.timeInForce = Ouch.TimeInForce.market ∨ eo.timeInForce = Ouch.TimeInForce.system) →
      ∀ n, (eo.qty.toNat + 99) / 100 + 1 ≤ n →
        OuchSession.FilledUp eo.token eo.qty.toNat s ((OuchSession.marketLogic E)^[n] s)) ∧
    ∀ (s : BoeSession W) (no : Boe.NewOrder) (d : BoeOrder), BoeSession.NothingPending s →
      s.activeOrders.lookup no.token.str = some (BoeOrder.parseOrder d no) →
      no.qty.toNat ≤ 1000000 →
      ∀ n, (no.qty.toNat + 99) / 100 + 1 ≤ n →
        BoeSession.FilledUp no.token no.qty.toNat s ((BoeSession.marketLogic E)^[n] s) := by
  constructor
  · intro s eo d hs ho hmin htif n hn
    exact OuchSession.fillsUp E hgate hs ho hmin htif hn
  · intro s no d hs ho hbound n hn
    exact BoeSession.fillsUp E hgate hqty hs ho hbound hn

end

/-! ## Two sessions -/

/-- Orders of 200 and of 50 shares. -/
def ouchHolding : OuchSession Unit :=
  OuchSession.run quietEnv () (OuchSession.loggedIn ++
    [OuchSession.enterPacket 'a' 200, OuchSession.enterPacket 'b' 50])

def boeHolding : BoeSession Unit :=
  BoeSession.run quietEnv () [BoeSession.newPacket 'a' [200, 0, 0, 0],
    BoeSession.newPacket 'b' [50, 0, 0, 0]]

/-- The order of the example is under its token. -/
theorem keysAgree_boeHolding : BoeSession.KeysAgree boeHolding.activeOrders :=
  KeyedMap.forall_lookup_iff.mpr (by decide +kernel)

/-- Each of the two sessions fills both orders. -/
theorem moves_shares_of_two :
    OuchSession.MovesShares ouchHolding (OuchSession.executionLogic quietEnv ouchHolding) ∧
      BoeSession.MovesShares boeHolding (BoeSession.executionLogic quietEnv boeHolding) :=
  ⟨(moves_shares quietEnv).1 _ (OuchSession.keysAgree_run quietEnv () _).1
      (KeyedMap.forall_lookup_iff.mpr (by decide +kernel)),
    (moves_shares quietEnv).2 _ keysAgree_boeHolding⟩

/-- What the packets for the 200 shares ask for. -/
def ouchEntered : Ouch.EnterOrder :=
  .fromNetwork (.ofMem (Mem.write ([0, 50, 85, 79] ++ OuchSession.tokenBytes 'a' ++
    [66, 0, 0, 0, 200] ++ List.replicate 8 65 ++ [0, 0, 0, 1] ++ [0, 1, 0x86, 0x9E] ++
    List.replicate 4 65 ++ [89, 79, 78, 0, 0, 0, 0, 78, 78]) fun _ => 0))

def boeEntered : Boe.NewOrder :=
  .ofMem (Mem.write (BoeSession.headerBytes 0x38 ++ BoeSession.tokenBytes 'a' ++ [66] ++
    [200, 0, 0, 0]) fun _ => 0)

/-- The 200 shares are filled after three ticks, with another order in the book. -/
theorem undisturbed_filledUp_of_two :
    ouchEntered.qty = 200 ∧ boeEntered.qty = 200 ∧
      OuchSession.FilledUp ouchEntered.token ouchEntered.qty.toNat ouchHolding
        ((OuchSession.marketLogic quietEnv)^[3] ouchHolding) ∧
      BoeSession.FilledUp boeEntered.token boeEntered.qty.toNat boeHolding
        ((BoeSession.marketLogic quietEnv)^[3] boeHolding) :=
  ⟨by decide +kernel, by decide +kernel,
    (undisturbed_filledUp quietEnv (fun _ => rfl) fun _ => rfl).1 ouchHolding ouchEntered
      (quietEnv.ouchOrder ()).1 ⟨OuchSession.keyed_run quietEnv () _, by decide +kernel,
        by decide +kernel, by decide +kernel⟩ (by decide +kernel) (by decide +kernel)
      (.inl (by decide +kernel)) 3 (by decide +kernel),
    (undisturbed_filledUp quietEnv (fun _ => rfl) fun _ => rfl).2 boeHolding boeEntered
      (quietEnv.boeOrder ()).1 ⟨keysAgree_boeHolding, by decide +kernel, by decide +kernel⟩
      (by decide +kernel) (by decide +kernel) 3 (by decide +kernel)⟩

end Evtsim
