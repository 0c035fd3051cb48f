import Evtsim.Boe.Dead
import Evtsim.Ouch.Dead

/-!
# A dead order stays dead

The two sessions side by side, and a run of each that brings a dead order back: a filled order waits in
`active_orders` for the next execution pass, and a request that comes in the meantime meets it there.
-/

namespace Evtsim

open Machine Session

/-- **A dead order stays dead** throughout a run of either session, that is, no message is about it and
nothing remains of it ever again, exactly when every event leaves the dead alone. -/
theorem deadOrders_iff {W : Type} (E : Env W) (w : W) :
    (∀ es, Throughout (OuchSession.watchStep E) OuchSession.StayDead (OuchSession.watchInit E w) es ↔
      Along (OuchSession.watchStep E) (OuchSession.LeavesDead E) (OuchSession.watchInit E w) es) ∧
    ∀ es, Throughout (BoeSession.watchStep E) BoeSession.StayDead (BoeSession.watchInit E w) es ↔
      Along (BoeSession.watchStep E) (BoeSession.LeavesDead E) (BoeSession.watchInit E w) es :=
  ⟨OuchSession.stayDead_iff E w, BoeSession.stayDead_iff E w⟩

/-- An order of 100 shares is filled at the first tick. In an `ouch_session` a cancel is then reported
for it, in a `boe_session` a modification gives it another 100 shares. -/
theorem not_deadOrders :
    (¬ ∀ (W : Type) (E : Env W) (w : W) (es : List OuchSession.Event),
      Throughout (OuchSession.watchStep E) OuchSession.StayDead (OuchSession.watchInit E w) es) ∧
    ¬ ∀ (W : Type) (E : Env W) (w : W) (es : List BoeSession.Event),
      Throughout (BoeSession.watchStep E) BoeSession.StayDead (BoeSession.watchInit E w) es := by
  constructor
  · intro h
    have hlate := (h Unit quietEnv () (OuchSession.loggedIn ++ [OuchSession.enterPacket 'a' 100,
      .marketLogic, OuchSession.cancelPacket 'a' 0, .marketLogic])).last.1
    have hone : (Machine.run (OuchSession.watchStep quietEnv) (OuchSession.watchInit quietEnv ())
        (OuchSession.loggedIn ++ [OuchSession.enterPacket 'a' 100, .marketLogic,
          OuchSession.cancelPacket 'a' 0, .marketLogic])).late.length = 1 := by
      decide +kernel
    rw [hlate] at hone
    cases hone
  · intro h
    have hlate := (h Unit quietEnv () [BoeSession.newPacket 'a' [100, 0, 0, 0], .marketLogic,
      BoeSession.modifyPacket 'a' 'b' [200, 0, 0, 0], .marketLogic]).last.1
    have hone : (Machine.run (BoeSession.watchStep quietEnv) (BoeSession.watchInit quietEnv ())
        [BoeSession.newPacket 'a' [100, 0, 0, 0], .marketLogic,
          BoeSession.modifyPacket 'a' 'b' [200, 0, 0, 0], .marketLogic]).late.length = 1 := by
      decide +kernel
    rw [hlate] at hone
    cases hone

end Evtsim
