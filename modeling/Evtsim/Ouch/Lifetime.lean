import Evtsim.Ouch.Expiry

/-!
# How long an OUCH order lives

`expired` counts an order down from the time it was constructed: the seconds left are computed in 64 bits
and cut to a signed 32-bit number. `livesAsTold_iff` says when the answer is nevertheless the one that the
time in force asks for.

`replace_logic` gives an order a new time in force, and the countdown that goes with it, but not a new
time of entry, and `expired` counts from there. `restarts_iff` says for which orders and replacements the
new lifetime is kept all the same, and for a run of such replacements that none of the orders is reported
as timed out too early.
-/

namespace Evtsim

open Wire Ouch Log Machine Session

/-! ## The answer of `expired` -/

namespace OuchOrder

/-- The seconds that an order has left at time `t`, before they are cut to 32 bits. -/
def secondsLeft (o : OuchOrder) (t : ℤ) : ℤ := (o.timeInForce.toNat : ℤ) - (t - o.recvOrderTime)

/-- The answer of `expired` when the clock reads `t`. -/
def expiredAt (o : OuchOrder) (t : ℤ) : Bool :=
  if o.countsDown then (o.countDown t).remainTimeInForce ≤ 0 else o.remainTimeInForce ≤ 0

/-- `expired()` is the countdown at the second that it reads. -/
theorem expired_eq_expiredAt {W : Type} (E : Env W) (o : OuchOrder) (w : W) :
    (o.expired E w).1 = o.expiredAt (E.time w).1 := by
  unfold expired expiredAt
  split
  · rfl
  · rfl

/-- A countdown answers by the residue of the seconds left. -/
theorem expiredAt_iff {o : OuchOrder} (h : o.countsDown = true) (t : ℤ) :
    o.expiredAt t = true ↔ o.secondsLeft t % 2 ^ 32 = 0 ∨ 2 ^ 31 ≤ o.secondsLeft t % 2 ^ 32 := by
  unfold expiredAt
  rw [if_pos h, decide_eq_true_eq]
  exact int32_ofInt_le_zero

/-- A time in force in seconds. -/
theorem countsDown_iff {o : OuchOrder} : o.countsDown = true ↔
    o.timeInForce ∉ [TimeInForce.ioc, TimeInForce.market, TimeInForce.system] := by
  unfold countsDown
  simp only [Bool.and_eq_true, bne_iff_ne, List.mem_cons, List.not_mem_nil, or_false, not_or, and_assoc]

end OuchOrder

namespace OuchSession

variable {W : Type} (E : Env W)

/-! ## Orders as they are entered -/

/-- The time at which an order is constructed from the surroundings `w`. -/
def constructedAt (w : W) : ℤ := (E.time (E.rawOuchOrder w).2).1

/-- The order that is constructed for a message. -/
def constructed (w : W) (eo : EnterOrder) : OuchOrder := (E.ouchOrder w).1.parseOrder eo

/-- An order constructed from the surroundings `w` is expired in the surroundings `w'` exactly if its time
in force has passed in between. -/
def LivesAsTold (eo : EnterOrder) (w w' : W) : Prop :=
  ((constructed E w eo).expired E w').1 = true ↔
    (eo.timeInForce.toNat : ℤ) ≤ (E.time w').1 - constructedAt E w

/-- **Lifetime.** An order whose time in force is in seconds is expired when it should be, at every time in
the 2^32 seconds from its construction, exactly when the seconds that it has left fit into a signed 32-bit
number. -/
theorem livesAsTold_iff {eo : EnterOrder}
    (htif : eo.timeInForce ∉ [TimeInForce.ioc, TimeInForce.market, TimeInForce.system]) (w w' : W)
    (hle : constructedAt E w ≤ (E.time w').1) (hlt : (E.time w').1 - constructedAt E w < 2 ^ 32) :
    LivesAsTold E eo w w' ↔
      -2 ^ 31 ≤ (eo.timeInForce.toNat : ℤ) - ((E.time w').1 - constructedAt E w) ∧
        (eo.timeInForce.toNat : ℤ) - ((E.time w').1 - constructedAt E w) < 2 ^ 31 := by
  have hcount : (constructed E w eo).countsDown = true := OuchOrder.countsDown_iff.mpr htif
  have hleft : (constructed E w eo).secondsLeft (E.time w').1 =
      (eo.timeInForce.toNat : ℤ) - ((E.time w').1 - constructedAt E w) := rfl
  have hbound : (eo.timeInForce.toNat : ℤ) < 2 ^ 32 := by exact_mod_cast eo.timeInForce.toNat_lt
  have hnonneg : 0 ≤ (eo.timeInForce.toNat : ℤ) := Int.natCast_nonneg _
  have hpassed : 0 ≤ (E.time w').1 - constructedAt E w := Int.sub_nonneg.mpr hle
  unfold LivesAsTold
  rw [OuchOrder.expired_eq_expiredAt, OuchOrder.expiredAt_iff hcount, hleft]
  generalize (E.time w').1 - constructedAt E w = passed at *
  generalize (eo.timeInForce.toNat : ℤ) = told at *
  constructor
  · intro h
    by_cases hpast : told ≤ passed
    · have hres := h.mpr hpast
      omega
    · have hres := mt h.mp hpast
      omega
  · intro h
    constructor
    · intro hres
      omega
    · intro hpast
      omega

/-- Buy 200 shares for the seconds that four bytes give. -/
def enterSeconds (c : Char) (tif : List UInt8) : Mem :=
  Mem.write ([0, 50, 85, 79] ++ tokenBytes c ++ [66, 0, 0, 0, 200] ++ List.replicate 8 65 ++
    [0, 0, 0, 1] ++ tif ++ List.replicate 4 65 ++ [89, 79, 78, 0, 0, 0, 0, 78, 78]) fun _ => 0

/-- An order for five seconds, two seconds later. -/
theorem livesAsTold_iff_five :
    LivesAsTold tickingEnv (EnterOrder.ofMem (enterSeconds 'a' [0, 0, 0, 5])).fromNetwork 0 2 :=
  (livesAsTold_iff tickingEnv (by decide +kernel) 0 2 (by decide +kernel) (by decide +kernel)).mpr
    (by decide +kernel)

/-- An order for 2^32 - 1 seconds is expired from the start. -/
theorem not_livesAsTold_long :
    ¬ ∀ (W : Type) (E : Env W) (p : Mem) (w w' : W), validateEnterOrder p = true →
      (EnterOrder.ofMem p).fromNetwork.timeInForce ∉
        [TimeInForce.ioc, TimeInForce.market, TimeInForce.system] →
      constructedAt E w ≤ (E.time w').1 → (E.time w').1 - constructedAt E w < 2 ^ 32 →
        LivesAsTold E (EnterOrder.ofMem p).fromNetwork w w' := by
  intro h
  have hlives := (h Unit quietEnv (enterSeconds 'a' [255, 255, 255, 255]) () () (by decide +kernel)
    (by decide +kernel) (by decide +kernel) (by decide +kernel)).mp (by decide +kernel)
  exact absurd hlives (by decide +kernel)

/-! ## Replaced orders -/

/-- A time in force in seconds, of less than 2^31. -/
def InSeconds (tif : UInt32) : Prop :=
  tif ∉ [TimeInForce.ioc, TimeInForce.market, TimeInForce.system] ∧ tif.toNat < 2 ^ 31

instance (tif : UInt32) : Decidable (InSeconds tif) := inferInstanceAs (Decidable (_ ∧ _))

/-- Replaced at `t1`, an order is not expired before its new time in force has passed. -/
def Restarts (o : OuchOrder) (ro : OuchReplaceOrderReq) (t1 : ℤ) : Prop :=
  ∀ t, t1 ≤ t → t < t1 + ro.timeInForce.toNat → (replaced o ro).expiredAt t = false

/-- Counted from `t0`, a countdown of `tif` seconds is not over in the `tif` seconds from `t1` on: up to
multiples of 2^32 the times agree, or `t0` is later by so little that the countdown still fits. -/
def FitsFrom (t0 t1 : ℤ) (tif : UInt32) : Prop := (t0 - t1) % 2 ^ 32 + tif.toNat < 2 ^ 31

instance (t0 t1 : ℤ) (tif : UInt32) : Decidable (FitsFrom t0 t1 tif) :=
  inferInstanceAs (Decidable (_ < _))

/-- A countdown that fits into its 32 bits does not run out before its time in force. -/
theorem not_expiredAt_of_fits {o : OuchOrder} {t1 t : ℤ} (htif : InSeconds o.timeInForce)
    (hfits : FitsFrom o.recvOrderTime t1 o.timeInForce) (hle : t1 ≤ t)
    (hlt : t < t1 + o.timeInForce.toNat) : o.expiredAt t = false := by
  rw [← Bool.not_eq_true, OuchOrder.expiredAt_iff (OuchOrder.countsDown_iff.mpr htif.1),
    OuchOrder.secondsLeft]
  unfold FitsFrom at hfits
  omega

/-- A replacement restarts the countdown exactly if that fits into its 32 bits. -/
theorem restarts_iff_fits {o : OuchOrder} {ro : OuchReplaceOrderReq} (htif : InSeconds ro.timeInForce)
    (t1 : ℤ) : Restarts o ro t1 ↔ FitsFrom o.recvOrderTime t1 ro.timeInForce := by
  refine ⟨fun h => ?_, fun h t hle hlt => not_expiredAt_of_fits (o := replaced o ro) htif h hle hlt⟩
  have hcount : (replaced o ro).countsDown = true := OuchOrder.countsDown_iff.mpr htif.1
  have hpos : 0 < (ro.timeInForce.toNat : ℤ) := by
    refine Int.natCast_pos.mpr (Nat.pos_of_ne_zero fun h0 => htif.1 ?_)
    have hioc : ro.timeInForce = TimeInForce.ioc := UInt32.toNat_inj.mp h0
    rw [hioc]
    exact List.mem_cons_self
  have hbound : (ro.timeInForce.toNat : ℤ) < 2 ^ 31 := by exact_mod_cast htif.2
  -- the first second of the new lifetime and its last one decide
  have hends : ∀ t, t1 ≤ t → t < t1 + ro.timeInForce.toNat →
      ¬ (((ro.timeInForce.toNat : ℤ) - (t - o.recvOrderTime)) % 2 ^ 32 = 0 ∨
        2 ^ 31 ≤ ((ro.timeInForce.toNat : ℤ) - (t - o.recvOrderTime)) % 2 ^ 32) := by
    intro t hle hlt hres
    exact Bool.false_ne_true ((h t hle hlt).symm.trans ((OuchOrder.expiredAt_iff hcount t).mpr hres))
  have hfirst := hends t1 le_rfl (by omega)
  have hlast := hends (t1 + ro.timeInForce.toNat - 1) (by omega) (by omega)
  unfold FitsFrom
  omega

/-! ## The replacements of a run -/

/-- When an order was replaced, and for how long. -/
structure Restart where
  time : ℤ
  timeInForce : UInt32
deriving DecidableEq

/-- A session with the last replacement of the order held under each key. -/
structure Replacements (W : Type) where
  session : OuchSession W
  last : Key → Option Restart

namespace Replacements

def init (w : W) : Replacements W := { session := OuchSession.init E w, last := fun _ => none }

/-- A pass of `replace_logic` with the replacements. -/
abbrev Noted (W : Type) := Pass W × (Key → Option Restart)

/-- A replacement that cancels its order is not noted; one that is applied is noted under the new token. -/
def replaceStep (a : Noted W) (ro : OuchReplaceOrderReq) : Noted W :=
  (OuchSession.replaceStep E a.1 ro,
    if replaceCancels ro (entry E.ouchOrder a.1.1 ro.existingToken.str).executedQty then a.2
    else fun k =>
      if k = ro.existingToken.str then none
      else if k = ro.newToken.str then
        some { time := (E.time a.1.1.env).1, timeInForce := ro.timeInForce }
      else a.2 k)

/-- The replacements of a tick. -/
def replaceLogic (a : Replacements W) : Noted W :=
  Machine.run (replaceStep E) ((beforeReplace E a.session, []), a.last)
    (beforeReplace E a.session).pendingReplace

/-- One event. Between ticks, what is noted under a key that is not active is forgotten. -/
def step (a : Replacements W) : Event → Replacements W
  | .marketLogic =>
    { session := OuchSession.step E a.session .marketLogic, last := (replaceLogic E a).2 }
  | e =>
    { session := OuchSession.step E a.session e
      last := fun k => if k ∈ a.session.activeOrders then a.last k else none }

end Replacements

/-- The notes follow the run. -/
theorem replacements_session (w : W) (es : List Event) :
    (Machine.run (Replacements.step E) (.init E w) es).session = run E w es := by
  refine run_view (g := Replacements.session) (fun a e => ?_) (.init E w) es
  cases e <;> rfl

/-- The message reports an order as timed out. -/
def timesOut : Ouch.OutMsg → Bool
  | .orderCanceled m => m.reason = .timeOut
  | _ => false

/-- A visit does not report an order as timed out that has been replaced, for some seconds that have not
passed. -/
def NotTooEarly (last : Key → Option Restart) (st : Pass W) (k : Key) : Prop :=
  ∀ r ∈ last k, InSeconds r.timeInForce →
    r.time ≤ (E.time (E.gate .execution st.1.env).2).1 →
    (E.time (E.gate .execution st.1.env).2).1 < r.time + r.timeInForce.toNat →
    ∀ m ∈ added st.1.pendingOutMessages (executionStep E st k).1.pendingOutMessages, timesOut m = false

/-- No visit of a tick reports an order too early. -/
def NoneTooEarly (a : Replacements W) : Event → Prop
  | .marketLogic =>
    Along (executionStep E) (NotTooEarly E (Replacements.replaceLogic E a).2)
      ((executionStart E (beforeExecution E a.session)).1, [])
      (executionStart E (beforeExecution E a.session)).2
  | _ => True

/-- Every replacement that a tick applies for some seconds has a countdown that fits. -/
def AllFit (a : Replacements W) : Event → Prop
  | .marketLogic =>
    Along (Replacements.replaceStep E) (fun b ro =>
        replaceCancels ro (entry E.ouchOrder b.1.1 ro.existingToken.str).executedQty = false →
        InSeconds ro.timeInForce →
          FitsFrom (entry E.ouchOrder b.1.1 ro.existingToken.str).recvOrderTime (E.time b.1.1.env).1
            ro.timeInForce)
      ((beforeReplace E a.session, []), a.last) (beforeReplace E a.session).pendingReplace
  | _ => True

/-! ## The countdowns that follow -/

/-- The order has the time in force that is noted under its key, and a countdown that fits. -/
def Timely (last : Key → Option Restart) (k : Key) (o : OuchOrder) : Prop :=
  ∀ r ∈ last k, o.timeInForce = r.timeInForce ∧
    (InSeconds r.timeInForce → FitsFrom o.recvOrderTime r.time r.timeInForce)

/-- A fill, a cut and a look at the clock leave the start of a countdown alone. -/
theorem keptByPasses_timely (last : Key → Option Restart) : KeptByPasses E (Timely last) where
  cut _ h := h
  modified _ h := h
  timed w h := by
    obtain ⟨r, hr⟩ := OuchOrder.expired_order E _ w
    rw [hr]
    exact h
  marked h := h
  filled _ _ h := h

/-- What is noted may be forgotten. -/
theorem Each.forget {last last' : Key → Option Restart} {m : KeyedMap Key OuchOrder} {done : List Key}
    (h : Each (Timely last) m done) (hle : ∀ k, ∀ r ∈ last' k, r ∈ last k) :
    Each (Timely last') m done :=
  fun k o ho => (h k o ho).imp (fun hk r hr => hk r (hle k r hr)) id

/-- A replacement whose countdown fits keeps every countdown on time. -/
theorem timely_replaceStep {a : Replacements.Noted W} {ro : OuchReplaceOrderReq}
    (h : Each (Timely a.2) a.1.1.activeOrders a.1.2)
    (hfit : replaceCancels ro (entry E.ouchOrder a.1.1 ro.existingToken.str).executedQty = false →
      InSeconds ro.timeInForce →
        FitsFrom (entry E.ouchOrder a.1.1 ro.existingToken.str).recvOrderTime (E.time a.1.1.env).1
          ro.timeInForce) :
    Each (Timely (Replacements.replaceStep E a ro).2)
      (Replacements.replaceStep E a ro).1.1.activeOrders (Replacements.replaceStep E a ro).1.2 := by
  unfold Replacements.replaceStep
  dsimp only
  rcases replaceStep_cases E a.1 ro with ⟨hcancel, w, m, -, -, hs⟩ | ⟨happly, w, m, A, -, -, hA, hs⟩
  · rw [hs, hcancel]
    exact h.touch _ _
  · rw [hs, happly]
    intro k o hlook
    have hlook' := (hA k).symm.trans hlook
    by_cases hold : k = ro.existingToken.str
    · rw [if_pos hold] at hlook'
      cases hlook'
    rw [if_neg hold] at hlook'
    by_cases hnew : k = ro.newToken.str
    · -- the replaced order
      rw [if_pos hnew] at hlook'
      cases hlook'
      left
      intro r hr
      simp only [Bool.false_eq_true, if_false, if_neg hold, if_pos hnew, Option.mem_def,
        Option.some.injEq] at hr
      subst hr
      exact ⟨rfl, hfit happly⟩
    · rw [if_neg hnew] at hlook'
      refine (h k o hlook').imp (fun hk r hr => hk r ?_) id
      simpa only [Bool.false_eq_true, if_false, if_neg hold, if_neg hnew] using hr

/-- The notes of a tick follow its `replace_logic`. -/
theorem replacements_pass (a : Replacements W) : finishPass (Replacements.replaceLogic E a).1 =
    finishPass (Machine.run (replaceStep E) (beforeReplace E a.session, [])
      (beforeReplace E a.session).pendingReplace) :=
  congrArg finishPass (run_view (f := Replacements.replaceStep E) (h := replaceStep E) (g := Prod.fst)
    (fun _ _ => rfl) _ _)

/-- The passes before the last keep every countdown on time, if those of their replacements fit. -/
theorem timely_beforeExecution {a : Replacements W} (h : Each (Timely a.last) a.session.activeOrders [])
    (hfit : AllFit E a .marketLogic) : Each (Timely (Replacements.replaceLogic E a).2)
      (beforeExecution E a.session).activeOrders [] := by
  have hrun := run_of_along (f := Replacements.replaceStep E)
    (I := fun b : Replacements.Noted W => Each (Timely b.2) b.1.1.activeOrders b.1.2)
    (fun b ro hb hro => timely_replaceStep E hb hro)
    (s := ((beforeReplace E a.session, []), a.last))
    ((keptByPasses_timely E a.last).beforeReplace h) hfit
  have hend := Each.finishPass (W := W) hrun fun _ hk => hk
  have hpass := congrArg Session.activeOrders (replacements_pass E a)
  unfold Replacements.replaceLogic at hpass ⊢
  rw [hpass] at hend
  exact hend

/-- Every event keeps every countdown on time, if those of its replacements fit. -/
theorem timely_step {a : Replacements W} (h : Each (Timely a.last) a.session.activeOrders [])
    (e : Event) (hfit : AllFit E a e) :
    Each (Timely (Replacements.step E a e).last) (Replacements.step E a e).session.activeOrders [] := by
  -- what is noted under an active key stays noted
  have hkeep : Each (Timely fun k => if k ∈ a.session.activeOrders then a.last k else none)
      a.session.activeOrders [] := by
    refine h.forget fun k r hr => ?_
    split at hr
    · exact hr
    · cases hr
  cases e with
  | setLogger => exact hkeep
  | packet p =>
    show Each _ (step E a.session (.packet p)).activeOrders []
    rcases step_packet E a.session p with ⟨-, hs⟩ | ⟨r, -, -, hs⟩
    · rw [hs]
      exact hkeep
    rw [hs]
    rcases handle_cases E a.session r with ⟨hidle, -⟩ | ⟨eo, w, d, m, -, hacc, -, -, hs⟩ |
      ⟨mo, w, -, -, -, hs⟩ | ⟨ro, w, -, -, hs⟩ | ⟨co, w, -, -, -, hs⟩
    · rw [hidle.activeOrders]
      exact hkeep
    · -- nothing is noted of a new order
      rw [hs]
      refine hkeep.insert fun r hr => ?_
      have hnone : r ∈ (if eo.token.str ∈ a.session.activeOrders then a.last eo.token.str else none) := hr
      rw [if_neg hacc.2.2.2.1] at hnone
      cases hnone
    all_goals rw [hs]; exact hkeep
  | marketLogic =>
    exact (keptByPasses_timely E _).executionLogic (timely_beforeExecution E h hfit)
  | cancelAll => exact each_empty
  | disconnect => exact hkeep

/-- A visit reports an order as timed out only if it is expired. -/
theorem notTooEarly_of_timely {last : Key → Option Restart} {st : Pass W}
    (h : Each (Timely last) st.1.activeOrders []) (k : Key) : NotTooEarly E last st k := by
  intro r hr hsec hle hlt m hm
  obtain ⟨o, ho, -, hsent⟩ := mem_added_executionStep E hm
  obtain ⟨htif, hfits⟩ := h.get ho r hr
  have hlives : (firstReading E st o).1 = false := by
    unfold firstReading
    rw [OuchOrder.expired_eq_expiredAt]
    rw [← htif] at hsec hfits hlt
    exact not_expiredAt_of_fits hsec (hfits hsec) hle hlt
  rcases hsent with ⟨c, -, -, -, hexp⟩ | ⟨c, rfl, -, hreason, -⟩ | ⟨x, rfl, -⟩
  · exact absurd (hlives.symm.trans hexp) Bool.false_ne_true
  · show decide (c.reason = .timeOut) = false
    rw [hreason]
    rfl
  · rfl

/-- **Restart.** A replacement for some seconds gives its order the whole new lifetime exactly when the
countdown fits, counted from the time of entry to the time of the replacement; and in a run in which this is
so for every such replacement, no visit reports a replaced order as timed out too early. -/
theorem restarts_iff :
    (∀ (o : OuchOrder) (ro : OuchReplaceOrderReq) (t1 : ℤ), InSeconds ro.timeInForce →
      (Restarts o ro t1 ↔ FitsFrom o.recvOrderTime t1 ro.timeInForce)) ∧
    ∀ (w : W) (es : List Event), Along (Replacements.step E) (AllFit E) (.init E w) es →
      Along (Replacements.step E) (NoneTooEarly E) (.init E w) es := by
  refine ⟨fun o ro t1 htif => restarts_iff_fits htif t1, fun w es hfit => ?_⟩
  refine hfit.of_invariant
    (I := fun a : Replacements W => Each (Timely a.last) a.session.activeOrders [])
    (fun a e ha he => timely_step E ha e he) (fun a e ha he => ?_) each_empty
  cases e with
  | marketLogic =>
    exact along_of_invariant
      (I := fun st : Pass W => Each (Timely (Replacements.replaceLogic E a).2) st.1.activeOrders [])
      (Q := fun _ => True) (fun st k hst => (keptByPasses_timely E _).executionStep hst k)
      (fun st k hst _ => notTooEarly_of_timely E hst k) (timely_beforeExecution E ha he)
      fun _ _ => trivial
  | setLogger => trivial
  | packet p => trivial
  | cancelAll => trivial
  | disconnect => trivial

instance (a : Replacements W) : ∀ e, Decidable (AllFit E a e)
  | .marketLogic => inferInstanceAs (Decidable (Along _ _ _ _))
  | .setLogger => isTrue trivial
  | .packet _ => isTrue trivial
  | .cancelAll => isTrue trivial
  | .disconnect => isTrue trivial

/-- Replace by 200 shares for `tif` seconds. -/
def replaceFor (c d : Char) (tif : UInt8) : Event :=
  bytesEvent ([0, 48, 85, 85] ++ tokenBytes c ++ tokenBytes d ++ [0, 0, 0, 200] ++
    [0, 0, 0, 1] ++ [0, 0, 0, tif] ++ [89, 78, 0, 0, 0, 0])

/-- An order that is replaced in the second of its entry. -/
theorem restarts_iff_at_once :
    Restarts zeroOuchOrder (.parseReplaceOrder (ReplaceOrder.ofMem (Mem.write
      (List.replicate 40 0 ++ [0, 0, 0, 5]) fun _ => 0)).fromNetwork) 0 ∧
    Along (Replacements.step quietEnv) (NoneTooEarly quietEnv) (.init quietEnv ())
      (loggedIn ++ [enterFor 'a' 100, replaceFor 'a' 'b' 5, .marketLogic]) :=
  ⟨((restarts_iff quietEnv).1 _ _ 0 (by decide +kernel)).mpr (by decide +kernel),
    (restarts_iff quietEnv).2 () _ (by decide +kernel)⟩

/-- An order that is replaced, for five seconds, four seconds after its entry, and reported a second
later. -/
theorem not_restarts_later :
    ¬ ∀ (W : Type) (E : Env W) (f : W → ℤ), NonDecreasing E f → ∀ (w : W) (es : List Event),
      Along (Replacements.step E) (NoneTooEarly E) (.init E w) es := by
  intro h
  have hrun := h ℤ tickingEnv id nonDecreasing_tickingEnv 0
    -- an order of a hundred seconds is replaced by one of five, which times out at once
    ((loggedIn ++ [enterFor 'a' 100, replaceFor 'a' 'b' 5]) ++ [.marketLogic])
  have htick := (along_append.mp hrun).2.1
  generalize ha : Machine.run (Replacements.step tickingEnv) (.init tickingEnv 0)
    (loggedIn ++ [enterFor 'a' 100, replaceFor 'a' 'b' 5]) = a at htick
  unfold NoneTooEarly at htick
  have hkeys : (executionStart tickingEnv (beforeExecution tickingEnv a.session)).2 =
      [(tokenOf 'b').str] := by
    rw [← ha]
    decide +kernel
  have hlast : (Replacements.replaceLogic tickingEnv a).2 (tokenOf 'b').str =
      some { time := 6, timeInForce := 5 } := by
    rw [← ha]
    decide +kernel
  simp only [hkeys] at htick
  obtain ⟨m, hm, hout⟩ : ∃ m ∈ added
      (executionStart tickingEnv (beforeExecution tickingEnv a.session)).1.pendingOutMessages
      (executionStep tickingEnv ((executionStart tickingEnv
        (beforeExecution tickingEnv a.session)).1, []) (tokenOf 'b').str).1.pendingOutMessages,
      timesOut m = true := by
    rw [← ha]
    decide +kernel
  have hquiet := htick.1 _ hlast (by decide) (by rw [← ha]; decide +kernel) (by rw [← ha]; decide +kernel)
    m hm
  exact Bool.false_ne_true (hquiet.symm.trans hout)

end OuchSession

end Evtsim
