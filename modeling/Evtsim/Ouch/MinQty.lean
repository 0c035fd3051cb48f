import Evtsim.Ouch.Filling
import Evtsim.Ouch.Tick

/-!
# Minimum quantities

An order may ask that no fill is smaller than its `min_qty`, or than what remains of it.
`construct_order_executed` draws a lot, caps it at the remaining shares and then turns away the lots that
are larger than `min_qty`, not the smaller ones. `respectsMinQty_run` says for which lots a run fills the
orders as they ask all the same.
-/

namespace Evtsim

open Wire Ouch Log Machine Session

namespace OuchSession

variable {W : Type} (E : Env W)

/-! ## What a run is to do -/

/-- The visit comes to an execution of `o`. -/
structure Draws (st : Pass W) (k : Key) (o : OuchOrder) : Prop where
  held : st.1.activeOrders.lookup k = some o
  gate : (E.gate .execution st.1.env).1 = true
  inTime : (firstReading E st o).1 = false
  notIoc : o.timeInForce ≠ 0
  active : (secondReading E st o).1 = true

/-- The lot that the visit draws for an order, capped at what remains of it. -/
def lot (st : Pass W) (o : OuchOrder) : ℤ :=
  min ((1 + (E.rand (secondReading E st o).2.2).1 % 10 : ℤ) * 100) o.remainingQty

/-- The smallest fill that an order allows. -/
def leastFill (o : OuchOrder) : ℤ := min (o.minQty.toNat : ℤ) o.remainingQty

/-- Every fill of a tick is as large as its order asks, and every lot that is large enough is filled. -/
structure RespectsMinQty (s : OuchSession W) : Prop where
  filled : ∀ x, .executed x ∈ sentByTick E s →
    ∃ k o, (beforeExecution E s).activeOrders.lookup k = some o ∧ o.token = x.token ∧
      (o.minQty ≠ 0 → leastFill o ≤ x.executedQty.toNat)
  carriedOut : ∀ pre k post, (executionStart E (beforeExecution E s)).2 = pre ++ k :: post →
    ∀ o, Draws E (walk E (beforeExecution E s) pre) k o → o.minQty ≠ 0 →
      leastFill o ≤ lot E (walk E (beforeExecution E s) pre) o →
        ∃ x, .executed x ∈ added (walk E (beforeExecution E s) pre).1.pendingOutMessages
          (executionStep E (walk E (beforeExecution E s) pre) k).1.pendingOutMessages ∧
            x.token = o.token

/-- Only ticks fill, and they fill as asked. -/
def FillsAsAsked (s : OuchSession W) : Event → Prop
  | .marketLogic => RespectsMinQty E s
  | e => ∀ x, .executed x ∉ added s.pendingOutMessages (step E s e).pendingOutMessages

/-- The lot of an order with a minimum quantity is the smallest fill that the order allows. -/
def DrawsLeast (st : Pass W) (k : Key) : Prop :=
  ∀ o, Draws E st k o → o.minQty ≠ 0 → lot E st o = leastFill o

/-! ## One execution -/

section

variable {st : Pass W} {k : Key} {o : OuchOrder}

/-- A lot that is drawn is positive and fits into the message. -/
theorem lot_bounds (h : Draws E st k o) : 0 < lot E st o ∧ lot E st o < 2 ^ 32 := by
  have hpos : 0 < o.remainingQty := by
    have hleft := OuchOrder.remainingQty_pos_of_stillActive h.active
    rwa [(retimed_firstReading E st o).remainingQty] at hleft
  unfold lot
  omega

/-- A lot above the minimum quantity is turned away, any other is filled. -/
theorem added_of_draws (h : Draws E st k o) (hmin : o.minQty ≠ 0) :
    if (o.minQty.toNat : ℤ) < lot E st o then
      (executionStep E st k).1.pendingOutMessages = st.1.pendingOutMessages
    else ∃ x, x.token = o.token ∧ x.executedQty = UInt32.ofInt (lot E st o) ∧
      (executionStep E st k).1.pendingOutMessages = st.1.pendingOutMessages ++ [.executed x] := by
  -- the order that the second reading has left has the same quantities
  obtain ⟨hlot, hmin', htoken⟩ : drawn E ((st.1.withActive (st.1.activeOrders.insert k
      (secondReading E st o).2.1)).inEnv (secondReading E st o).2.2) (secondReading E st o).2.1 =
        lot E st o ∧ (secondReading E st o).2.1.minQty = o.minQty ∧
      (secondReading E st o).2.1.token = o.token := by
    obtain ⟨r, state, hread⟩ := retimed_secondReading E st o
    unfold drawn
    rw [inEnv_env, hread]
    exact ⟨rfl, rfl, rfl⟩
  have hs := executionStep_of_active E st h.held h.gate h.inTime h.notIoc h.active
  rcases constructOrderExecuted_drawn E ((st.1.withActive (st.1.activeOrders.insert k
      (secondReading E st o).2.1)).inEnv (secondReading E st o).2.2) k (secondReading E st o).2.1 with
    ⟨hlarge, w, hexe⟩ | ⟨hsmall, w, m, hm, hqty, -, hexe⟩
  · rw [hlot, hmin'] at hlarge
    rw [if_pos hlarge.2, hs, hexe]
    rfl
  · rw [hlot, hmin'] at hsmall
    rw [if_neg fun hlarge => hsmall ⟨hmin, hlarge⟩, hs, hexe]
    exact ⟨m, hm.trans htoken, hlot ▸ hqty, rfl⟩

/-- A lot is filled, and large enough, exactly when it is the least fill. -/
theorem lot_eq_leastFill : lot E st o = leastFill o ↔
    lot E st o ≤ o.minQty.toNat ∧ leastFill o ≤ lot E st o := by
  have hcap : lot E st o ≤ o.remainingQty := min_le_right _ _
  unfold leastFill
  omega

end

/-! ## Ticks -/

section

variable {s : OuchSession W} (hbook : Keyed (beforeExecution E s).activeOrders [])

include hbook

/-- A tick that respects the minimum does so at every visit. -/
theorem drawsLeast_of_respects (h : RespectsMinQty E s) {pre post : List Key} {k : Key}
    (hsplit : (executionStart E (beforeExecution E s)).2 = pre ++ k :: post) :
    DrawsLeast E (walk E (beforeExecution E s) pre) k := by
  intro o hdraws hmin
  have hsent := added_of_draws E hdraws hmin
  have ho := (lookup_walk E hsplit).symm.trans hdraws.held
  rw [lot_eq_leastFill E]
  split at hsent
  · -- the lot is large enough, but nothing is sent
    rename_i hlarge
    have henough : leastFill o ≤ lot E (walk E (beforeExecution E s) pre) o :=
      (min_le_left _ _).trans hlarge.le
    obtain ⟨x, hx, -⟩ := h.carriedOut pre k post hsplit o hdraws hmin henough
    rw [hsent, added_self] at hx
    exact absurd hx List.not_mem_nil
  · rename_i hsmall
    obtain ⟨x, htoken, hqty, hout⟩ := hsent
    have hx : .executed x ∈ sentByTick E s := by
      refine added_visit_subset_sentByTick E hsplit ?_
      rw [hout, added_append]
      exact List.mem_singleton_self _
    obtain ⟨k', o', ho', htoken', hleast⟩ := h.filled x hx
    have hkey : o.token.str = k := (hbook k o ho).resolve_right List.not_mem_nil
    have hkey' : o'.token.str = k' := (hbook k' o' ho').resolve_right List.not_mem_nil
    rw [htoken', htoken, hkey] at hkey'
    rw [← hkey', ho] at ho'
    cases ho'
    obtain ⟨hpos, hfits⟩ := lot_bounds E hdraws
    refine ⟨Int.not_lt.mp hsmall, ?_⟩
    have hle := hleast hmin
    rwa [hqty, toNat_ofInt hpos.le hfits] at hle

omit hbook in
/-- A tick respects the minimum if every visit does. -/
theorem respects_of_drawsLeast (h : ∀ pre k post,
    (executionStart E (beforeExecution E s)).2 = pre ++ k :: post →
      DrawsLeast E (walk E (beforeExecution E s) pre) k) : RespectsMinQty E s := by
  constructor
  · -- every execution sent is by some visit
    intro x hx
    obtain ⟨pre, k, post, hsplit, hvisit⟩ :=
      exists_visit_of_sent E hx fun hnot => hnot.1 rfl
    obtain ⟨o, ho, hgate, hsent⟩ := mem_added_executionStep E hvisit
    rcases hsent with ⟨c, heq, -⟩ | ⟨c, heq, -⟩ | ⟨x', heq, htoken, hfirst, hioc, hsecond⟩
    · cases heq
    · cases heq
    cases heq
    refine ⟨k, o, (lookup_walk E hsplit).symm.trans ho, htoken.symm, fun hmin => ?_⟩
    have hdraws : Draws E (walk E (beforeExecution E s) pre) k o := ⟨ho, hgate, hfirst, hioc, hsecond⟩
    have hfill := added_of_draws E hdraws hmin
    obtain ⟨hpos, hfits⟩ := lot_bounds E hdraws
    split at hfill
    · rw [hfill, added_self] at hvisit
      exact absurd hvisit List.not_mem_nil
    · obtain ⟨x', -, hqty, hout⟩ := hfill
      rw [hout, added_append, List.mem_singleton] at hvisit
      cases hvisit
      rw [hqty, toNat_ofInt hpos.le hfits, h pre k post hsplit o hdraws hmin]
  · -- a visit to an order with enough left executes it
    intro pre k post hsplit o hdraws hmin henough
    have hfill := added_of_draws E hdraws hmin
    have hleast := (lot_eq_leastFill E).mp (h pre k post hsplit o hdraws hmin)
    rw [if_neg (Int.not_lt.mpr hleast.1)] at hfill
    obtain ⟨x, htoken, -, hout⟩ := hfill
    refine ⟨x, ?_, htoken⟩
    rw [hout, added_append]
    exact List.mem_singleton_self _

end

/-- **Minimum quantities.** A run fills every order as it asks exactly when every lot that it draws for an
order with a minimum quantity is, capped at the remaining shares, the smaller of the minimum quantity and
the remaining shares. -/
theorem respectsMinQty_run (w : W) (es : List Event) :
    Along (step E) (FillsAsAsked E) (init E w) es ↔
      Along (step E) (EveryVisit E (DrawsLeast E)) (init E w) es := by
  refine along_congr (I := fun s => Keyed s.activeOrders []) (K := fun _ _ => True)
    (fun s e hs _ _ => keyed_step E hs e) (fun s e hs _ => ?_) keyed_empty
    (along_of_forall fun _ _ => trivial)
  cases e with
  | marketLogic =>
    refine Iff.trans ?_ along_iff.symm
    constructor
    · intro h pre k post hsplit
      exact drawsLeast_of_respects E (keyed_beforeExecution E hs) h hsplit
    · exact respects_of_drawsLeast E
  | setLogger => exact iff_of_true (executed_notMem_added E fun h => by cases h) trivial
  | packet p => exact iff_of_true (executed_notMem_added E fun h => by cases h) trivial
  | cancelAll => exact iff_of_true (executed_notMem_added E fun h => by cases h) trivial
  | disconnect => exact iff_of_true (executed_notMem_added E fun h => by cases h) trivial

/-- Buy 200 shares until market close, at least `least` at a time. -/
def enterLeast (c : Char) (least : UInt8) : Event :=
  bytesEvent ([0, 50, 85, 79] ++ tokenBytes c ++ [66, 0, 0, 0, 200] ++ List.replicate 8 65 ++
    [0, 0, 0, 1] ++ [0, 1, 0x86, 0x9E] ++ List.replicate 4 65 ++
    [89, 79, 78, 0, 0, 0, least, 78, 78])

/-- Of 200 shares, 100 are filled although the order asks for at least 150. -/
theorem not_respectsMinQty_small :
    ¬ ∀ (W : Type) (E : Env W) (w : W) (es : List Event),
      Along (step E) (FillsAsAsked E) (init E w) es := by
  intro h
  have hrun := h Unit quietEnv () ((loggedIn ++ [enterLeast 'a' 150]) ++ [.marketLogic])
  have htick : RespectsMinQty quietEnv (Machine.run (step quietEnv) (init quietEnv ())
    (loggedIn ++ [enterLeast 'a' 150])) := (along_append.mp hrun).2.1
  generalize hs : Machine.run (step quietEnv) (init quietEnv ())
    (loggedIn ++ [enterLeast 'a' 150]) = s at htick
  have hkeys : (beforeExecution quietEnv s).activeOrders.keys = [(tokenOf 'a').str] := by
    rw [← hs]
    decide +kernel
  have hasks : ((beforeExecution quietEnv s).activeOrders.lookup (tokenOf 'a').str).map
      (fun o => (o.minQty, leastFill o)) = some (150, 150) := by
    rw [← hs]
    decide +kernel
  have hsent : ∃ m ∈ sentByTick quietEnv s, m.kind = .executed ∧ executedShares (tokenOf 'a') m = 100 := by
    rw [← hs]
    decide +kernel
  obtain ⟨m, hm, hkind, hqty⟩ := hsent
  -- the message is an execution
  cases m <;> cases hkind
  rename_i x
  obtain ⟨k, o, ho, -, hleast⟩ := htick.filled x hm
  have hk := AList.mem_keys.mp (KeyedMap.mem_of_lookup ho)
  rw [hkeys, List.mem_singleton] at hk
  rw [← hk, ho, Option.map_some, Option.some.injEq, Prod.mk.injEq] at hasks
  have hle := hleast (by rw [hasks.1]; decide)
  rw [hasks.2] at hle
  unfold executedShares at hqty
  dsimp only at hqty
  split at hqty <;> omega

end OuchSession

end Evtsim
