import Evtsim.Lib.Places
import Evtsim.Ouch.Tokens

/-!
# Replacement in an `ouch_session`

Which order is where during `replace_logic`, told from the messages: an `OrderReplaced` moves the order
of its old token to its new one, an `OrderCanceled` reports the order of its token. `Preserves` says
that every order that was active is still held, as itself and alone, unless it has been reported.
`replaceLogic_preserves` says exactly which batches have this property: `KeepsApart`, a condition on
the requests and the executed quantities that the pass finds, and not on what it does.
-/

namespace Evtsim

open Wire Ouch Session

namespace OuchSession

variable {W : Type} (E : Env W)

/-! ## Following the orders by the messages -/

/-- Where the orders of the start are. An order is named by the key that held it at the start. -/
structure Trail where
  /-- Which order a key holds. -/
  holder : Places Key Key
  /-- The orders reported as cancelled. -/
  reported : List Key
  /-- The keys under which they were cancelled. -/
  collected : List Key

namespace Trail

/-- Every order where it is. -/
def start (m : KeyedMap Key OuchOrder) : Trail :=
  { holder := fun k => if k ∈ m then some k else none, reported := [], collected := [] }

/-- The order held under `t` is cancelled. -/
def cancel (t : Key) (p : Trail) : Trail :=
  { p with reported := p.reported ++ (p.holder t).toList, collected := p.collected ++ [t] }

/-- The order held under `t` goes to `u`. -/
def move (t u : Key) (p : Trail) : Trail := { p with holder := p.holder.move t u }

/-- What a message says about the orders. -/
def follow (p : Trail) : Ouch.OutMsg → Trail
  | .orderReplaced m => p.move m.origToken.str m.token.str
  | .orderCanceled m => p.cancel m.token.str
  | _ => p

/-- A request is applied to the order it finds, by the quantity that the order had in `m`. -/
def moves (m : KeyedMap Key OuchOrder) (p : Trail) (ro : OuchReplaceOrderReq) : Bool :=
  ((p.holder ro.existingToken.str).bind m.lookup).any fun o => !replaceCancels ro o.executedQty

/-- What a request does to the orders of `m`. -/
def request (m : KeyedMap Key OuchOrder) (p : Trail) (ro : OuchReplaceOrderReq) : Trail :=
  if p.moves m ro then p.move ro.existingToken.str ro.newToken.str
  else p.cancel ro.existingToken.str

end Trail

/-- The trail of the messages that have come since `s`. -/
def trail (s s' : OuchSession W) : Trail :=
  (s'.pendingOutMessages.drop s.pendingOutMessages.length).foldl Trail.follow
    (Trail.start s.activeOrders)

/-- After `replace_logic` every order that was active is held where the messages say, with its
executed quantity and its order number, and no two in one place, unless it has been reported. -/
def Preserves (s : OuchSession W) : Prop :=
  ∃ place : Key → Key,
    (∀ k o, s.activeOrders.lookup k = some o → k ∉ (trail s (replaceLogic E s)).reported →
      (trail s (replaceLogic E s)).holder (place k) = some k ∧
        ∃ o', (replaceLogic E s).activeOrders.lookup (place k) = some o' ∧
          o'.executedQty = o.executedQty ∧ o'.orderID = o.orderID) ∧
    ∀ k k', k ∈ s.activeOrders → k' ∈ s.activeOrders →
      k ∉ (trail s (replaceLogic E s)).reported → k' ∉ (trail s (replaceLogic E s)).reported →
      place k = place k' → k = k'

/-- The new token of an applied replacement is not that of an order that has not been reported, its
own included. -/
def Vacant (m : KeyedMap Key OuchOrder) (p : Trail) (ro : OuchReplaceOrderReq) : Prop :=
  p.moves m ro = true → ∀ k, p.holder ro.newToken.str = some k → k ∈ p.reported

/-- Every applied replacement goes to a vacant token, and in the end no order that has not been
reported is held under a token under which another one was cancelled. -/
def KeepsApart (s : OuchSession W) : Prop :=
  Machine.Along (Trail.request s.activeOrders) (Vacant s.activeOrders) (.start s.activeOrders)
      s.pendingReplace ∧
    ∀ c ∈ (Machine.run (Trail.request s.activeOrders) (.start s.activeOrders)
        s.pendingReplace).collected,
      ∀ k, (Machine.run (Trail.request s.activeOrders) (.start s.activeOrders)
          s.pendingReplace).holder c = some k →
        k ∈ (Machine.run (Trail.request s.activeOrders) (.start s.activeOrders)
          s.pendingReplace).reported

/-! ## The trail and the book -/

/-- Where nothing is sent nothing is followed. -/
theorem trail_self (s s' : OuchSession W) (h : s'.pendingOutMessages = s.pendingOutMessages) :
    trail s s' = .start s.activeOrders := by
  rw [trail, h, List.drop_length]
  rfl

/-- A message sent is followed behind those before it. -/
theorem trail_emit {s s' : OuchSession W} (h : s.pendingOutMessages <+: s'.pendingOutMessages)
    (w : W) (m : Ouch.OutMsg) : trail s (s'.emit w m) = (trail s s').follow m := by
  rw [trail, emit_out, List.drop_append_of_le_length h.length_le, List.foldl_append]
  rfl

/-- During the loop the trail is right: it says which order every key of the book holds. -/
structure Following (s : OuchSession W) (st : Pass W) : Prop where
  out : s.pendingOutMessages <+: st.1.pendingOutMessages
  collected : (trail s st.1).collected = st.2
  distinct : (trail s st.1).holder.Distinct
  original : ∀ c k, (trail s st.1).holder c = some k → k ∈ s.activeOrders
  active : ∀ c o', st.1.activeOrders.lookup c = some o' →
    ∃ k o, (trail s st.1).holder c = some k ∧ s.activeOrders.lookup k = some o ∧
      o'.executedQty = o.executedQty ∧ o'.orderID = o.orderID

/-- At its start a pass has followed nothing. -/
theorem following_start (s : OuchSession W) : Following s (s, []) := by
  have htrail : trail s s = .start s.activeOrders := trail_self s s rfl
  have hholder : ∀ c k, (Trail.start s.activeOrders).holder c = some k → c = k ∧ c ∈ s.activeOrders := by
    intro c k hk
    unfold Trail.start at hk
    dsimp only at hk
    split at hk
    · rename_i hc
      cases hk
      exact ⟨rfl, hc⟩
    · cases hk
  refine ⟨List.prefix_refl _, by rw [htrail]; rfl, ?_, ?_, ?_⟩
  · rw [htrail]
    intro c c' k hk hk'
    exact (hholder c k hk).1.trans (hholder c' k hk').1.symm
  · rw [htrail]
    intro c k hk
    obtain ⟨rfl, hc⟩ := hholder c k hk
    exact hc
  · intro c o ho
    rw [htrail]
    exact ⟨c, o, if_pos (KeyedMap.mem_of_lookup ho), ho, rfl, rfl⟩

/-- No order of the start is lost: each has been reported or is held somewhere. -/
def Kept (s : OuchSession W) (st : Pass W) : Prop :=
  ∀ k, k ∈ s.activeOrders →
    k ∈ (trail s st.1).reported ∨ ∃ c, c ∈ st.1.activeOrders ∧ (trail s st.1).holder c = some k

/-- The existing token of a request is active at its turn. -/
def FindsOrder (st : Pass W) (ro : OuchReplaceOrderReq) : Prop :=
  ro.existingToken.str ∈ st.1.activeOrders

instance (st : Pass W) (ro : OuchReplaceOrderReq) : Decidable (FindsOrder st ro) :=
  inferInstanceAs (Decidable (_ ∈ st.1.activeOrders))

/-- One replacement, as the book and the trail see it: the order is reported and stays for now, or it
goes to the new token. -/
theorem replaceStep_trail {s : OuchSession W} {st : Pass W} {ro : OuchReplaceOrderReq}
    (h : Following s st) (hro : FindsOrder st ro) :
    ∃ o, st.1.activeOrders.lookup ro.existingToken.str = some o ∧
      s.pendingOutMessages <+: (replaceStep E st ro).1.pendingOutMessages ∧
      trail s (replaceStep E st ro).1 = (trail s st.1).request s.activeOrders ro ∧
      (((trail s st.1).moves s.activeOrders ro = false ∧
          (replaceStep E st ro).1.activeOrders = st.1.activeOrders ∧
          (replaceStep E st ro).2 = st.2 ++ [ro.existingToken.str]) ∨
        ((trail s st.1).moves s.activeOrders ro = true ∧
          (∀ c, (replaceStep E st ro).1.activeOrders.lookup c =
            if c = ro.existingToken.str then none
            else if c = ro.newToken.str then some (replaced o ro)
            else st.1.activeOrders.lookup c) ∧
          (replaceStep E st ro).2 = st.2)) := by
  obtain ⟨o, ho⟩ := KeyedMap.mem_iff_lookup.mp hro
  have hentry : entry E.ouchOrder st.1 ro.existingToken.str = o := entry_of_lookup E.ouchOrder ho
  -- the quantity that decides is still that of the start
  have hmoves : (trail s st.1).moves s.activeOrders ro = !replaceCancels ro o.executedQty := by
    obtain ⟨k, o₀, hk, ho₀, hexe, -⟩ := h.active _ o ho
    rw [Trail.moves, hk, Option.bind_some, ho₀, Option.any_some, hexe]
  have hout : ∀ w m (A : KeyedMap Key OuchOrder), s.pendingOutMessages <+:
      ((st.1.withActive A).emit w m).pendingOutMessages := fun w m A =>
    h.out.trans (List.prefix_append _ _)
  have htrail : ∀ w m (A : KeyedMap Key OuchOrder),
      trail s ((st.1.withActive A).emit w m) = (trail s st.1).follow m := fun w m A =>
    trail_emit (show s.pendingOutMessages <+: (st.1.withActive A).pendingOutMessages from h.out) w m
  refine ⟨o, ho, ?_⟩
  rcases replaceStep_cases E st ro with ⟨hcancel, w, m, hm, -, hs⟩ | ⟨hmove, w, m, A, hm, hm', hA, hs⟩
  · rw [hentry] at hcancel
    rw [hcancel, Bool.not_true] at hmoves
    rw [hs, htrail, Trail.request, hmoves, if_neg Bool.false_ne_true, Trail.follow, hm]
    refine ⟨hout _ _ _, rfl, .inl ⟨rfl, ?_, rfl⟩⟩
    exact KeyedMap.touch_of_mem _ hro
  · rw [hentry] at hmove hA
    rw [hmove, Bool.not_false] at hmoves
    rw [hs, htrail, Trail.request, hmoves, if_pos rfl, Trail.follow, hm, hm']
    exact ⟨hout _ _ _, rfl, .inr ⟨rfl, hA, rfl⟩⟩

/-- A replacement that finds its order is followed as it is reported. -/
theorem following_replaceStep {s : OuchSession W} {st : Pass W} {ro : OuchReplaceOrderReq}
    (h : Following s st) (hro : FindsOrder st ro) : Following s (replaceStep E st ro) := by
  obtain ⟨o, ho, hout, htrail, ⟨hmoves, hact, hdone⟩ | ⟨hmoves, hact, hdone⟩⟩ :=
    replaceStep_trail E h hro
  · -- the order stays where it is
    rw [Trail.request, hmoves, if_neg Bool.false_ne_true] at htrail
    refine ⟨hout, ?_, ?_, ?_, ?_⟩
    · rw [htrail, hdone, ← h.collected]
      rfl
    · rw [htrail]
      exact h.distinct
    · rw [htrail]
      exact h.original
    · rw [htrail, hact]
      exact h.active
  · -- the order moves to the new token
    rw [Trail.request, hmoves, if_pos rfl] at htrail
    refine ⟨hout, ?_, ?_, ?_, ?_⟩
    · rw [htrail, hdone, ← h.collected]
      rfl
    · rw [htrail]
      exact h.distinct.move
    · rw [htrail]
      intro c k hk
      rcases Places.move_eq_some hk with ⟨-, hk⟩ | ⟨-, -, hk⟩
      · exact h.original _ k hk
      · exact h.original _ k hk
    · rw [htrail]
      intro c o' ho'
      rw [hact] at ho'
      split at ho'
      · cases ho'
      rename_i hold
      split at ho'
      · rename_i hnew
        cases ho'
        obtain ⟨k, o₀, hk, ho₀, hexe, hid⟩ := h.active _ o ho
        refine ⟨k, o₀, ?_, ho₀, hexe, hid⟩
        rw [hnew]
        exact Places.move_target.trans hk
      · rename_i hnew
        obtain ⟨k, o₀, hk, ho₀, hexe, hid⟩ := h.active _ o' ho'
        exact ⟨k, o₀, (Places.move_other hnew hold).trans hk, ho₀, hexe, hid⟩

/-- One replacement loses no order exactly when none was lost before and its token is vacant. -/
theorem kept_replaceStep {s : OuchSession W} {st : Pass W} {ro : OuchReplaceOrderReq}
    (h : Following s st) (hro : FindsOrder st ro) :
    Kept s (replaceStep E st ro) ↔ Kept s st ∧ Vacant s.activeOrders (trail s st.1) ro := by
  obtain ⟨o, ho, hout, htrail, ⟨hmoves, hact, hdone⟩ | ⟨hmoves, hact, hdone⟩⟩ :=
    replaceStep_trail E h hro
  · rw [Trail.request, hmoves, if_neg Bool.false_ne_true] at htrail
    have hvacant : Vacant s.activeOrders (trail s st.1) ro := fun hm =>
      absurd (hmoves.symm.trans hm) Bool.false_ne_true
    rw [and_iff_left hvacant]
    unfold Kept
    rw [htrail, hact]
    constructor
    · intro hkept k hk
      rcases hkept k hk with hrep | hheld
      · rcases List.mem_append.mp hrep with hrep | hnow
        · exact .inl hrep
        · exact .inr ⟨_, hro, Option.mem_toList.mp hnow⟩
      · exact .inr hheld
    · intro hkept k hk
      exact (hkept k hk).imp (List.mem_append_left _) id
  rw [Trail.request, hmoves, if_pos rfl] at htrail
  -- the keys that hold orders behind the step
  have hmem : ∀ c, c ∈ (replaceStep E st ro).1.activeOrders ↔
      c ≠ ro.existingToken.str ∧ (c = ro.newToken.str ∨ c ∈ st.1.activeOrders) := by
    intro c
    rw [KeyedMap.mem_iff_lookup, hact]
    by_cases hold : c = ro.existingToken.str
    · simp [hold]
    by_cases hnew : c = ro.newToken.str
    · simp only [hnew, if_true, ne_eq, true_or, and_true]
      rw [if_neg (hnew ▸ hold)]
      exact iff_of_true ⟨_, rfl⟩ (hnew ▸ hold)
    · simp only [hold, hnew, if_false, ne_eq, not_false_eq_true, false_or, true_and]
      exact KeyedMap.mem_iff_lookup.symm
  unfold Kept
  rw [htrail]
  constructor
  · intro hkept
    constructor
    · intro k hk
      rcases hkept k hk with hrep | ⟨c, hc, hheld⟩
      · exact .inl hrep
      · obtain ⟨hold, hc⟩ := (hmem c).mp hc
        rcases Places.move_eq_some hheld with ⟨-, hheld⟩ | ⟨hnew, -, hheld⟩
        · exact .inr ⟨_, hro, hheld⟩
        · exact .inr ⟨c, hc.resolve_left hnew, hheld⟩
    · intro _ k hk
      rcases hkept k (h.original _ k hk) with hrep | ⟨c, hc, hheld⟩
      · exact hrep
      · -- the order that the new token held is held nowhere any more
        exfalso
        obtain ⟨hold, -⟩ := (hmem c).mp hc
        rcases Places.move_eq_some hheld with ⟨rfl, hsource⟩ | ⟨hnew, -, hstill⟩
        · exact hold (h.distinct _ _ k hk hsource)
        · exact hnew (h.distinct _ _ k hstill hk)
  · rintro ⟨hkept, hvacant⟩ k hk
    rcases hkept k hk with hrep | ⟨c, hc, hheld⟩
    · exact .inl hrep
    by_cases hnew : c = ro.newToken.str
    · exact .inl (hvacant hmoves k (hnew ▸ hheld))
    by_cases hold : c = ro.existingToken.str
    · subst hold
      exact .inr ⟨_, (hmem _).mpr ⟨Ne.symm hnew, .inl rfl⟩, Places.move_target.trans hheld⟩
    · exact .inr ⟨c, (hmem c).mpr ⟨hold, .inr hc⟩, (Places.move_other hnew hold).trans hheld⟩

/-! ## The whole pass -/

/-- The end of the pass erases what was collected, and loses whatever is held there unreported. -/
theorem preserves_iff {s : OuchSession W} {st : Pass W}
    (hst : st = Machine.run (replaceStep E) (s, []) s.pendingReplace) (h : Following s st) :
    Preserves E s ↔ Kept s st ∧ ∀ c ∈ (trail s st.1).collected, ∀ k,
      (trail s st.1).holder c = some k → k ∈ (trail s st.1).reported := by
  have htrail : trail s (replaceLogic E s) = trail s st.1 := by
    rw [hst]
    rfl
  have hact : (replaceLogic E s).activeOrders = KeyedMap.eraseAll st.2 st.1.activeOrders := by
    rw [hst]
    rfl
  rw [h.collected]
  unfold Preserves
  rw [htrail, hact]
  constructor
  · rintro ⟨place, hplace, -⟩
    constructor
    · intro k hk
      obtain ⟨o, ho⟩ := KeyedMap.mem_iff_lookup.mp hk
      by_cases hrep : k ∈ (trail s st.1).reported
      · exact .inl hrep
      · obtain ⟨hheld, o', ho', -⟩ := hplace k o ho hrep
        exact .inr ⟨place k, (KeyedMap.mem_eraseAll.mp (KeyedMap.mem_of_lookup ho')).2, hheld⟩
    · intro c hc k hk
      by_contra hrep
      obtain ⟨o, ho⟩ := KeyedMap.mem_iff_lookup.mp (h.original c k hk)
      obtain ⟨hheld, o', ho', -⟩ := hplace k o ho hrep
      have hkept := (KeyedMap.mem_eraseAll.mp (KeyedMap.mem_of_lookup ho')).1
      exact hkept (h.distinct _ _ k hk hheld ▸ hc)
  · rintro ⟨hkept, hdone⟩
    -- the place of an order that has not been reported
    have hplace : ∀ k, ∃ c, k ∈ s.activeOrders → k ∉ (trail s st.1).reported →
        (trail s st.1).holder c = some k ∧ c ∈ st.1.activeOrders ∧ c ∉ st.2 := by
      intro k
      by_cases hk : k ∈ s.activeOrders ∧ k ∉ (trail s st.1).reported
      · obtain ⟨c, hc, hheld⟩ := (hkept k hk.1).resolve_left hk.2
        exact ⟨c, fun _ _ => ⟨hheld, hc, fun hmem => hk.2 (hdone c hmem k hheld)⟩⟩
      · exact ⟨k, fun h₁ h₂ => absurd ⟨h₁, h₂⟩ hk⟩
    choose place hplace using hplace
    refine ⟨place, ?_, ?_⟩
    · intro k o ho hrep
      obtain ⟨hheld, hc, hkeep⟩ := hplace k (KeyedMap.mem_of_lookup ho) hrep
      obtain ⟨o', ho'⟩ := KeyedMap.mem_iff_lookup.mp hc
      obtain ⟨k', o₀, hk', ho₀, hexe, hid⟩ := h.active _ o' ho'
      obtain rfl : k' = k := Option.some.inj (hk'.symm.trans hheld)
      obtain rfl : o₀ = o := Option.some.inj (ho₀.symm.trans ho)
      exact ⟨hheld, o', by rw [KeyedMap.lookup_eraseAll, if_neg hkeep, ho'], hexe, hid⟩
    · intro k k' hk hk' hrep hrep' heq
      have hheld := (hplace k hk hrep).1
      have hheld' := (hplace k' hk' hrep').1
      rw [heq] at hheld
      exact Option.some.inj (hheld.symm.trans hheld')

/-- **Replacement loses and merges no order**, for a batch whose existing tokens are active at their
turn, exactly when the batch keeps the orders apart. -/
theorem replaceLogic_preserves (s : OuchSession W)
    (hfinds : Machine.Along (replaceStep E) FindsOrder (s, []) s.pendingReplace) :
    Preserves E s ↔ KeepsApart s := by
  have hstart := following_start s
  have hstep : ∀ st ro, Following s st → FindsOrder st ro → Following s (replaceStep E st ro) :=
    fun st ro h hro => following_replaceStep E h hro
  have hfollows : ∀ st ro, Following s st → FindsOrder st ro →
      trail s (replaceStep E st ro).1 = (trail s st.1).request s.activeOrders ro :=
    fun st ro h hro => by
      obtain ⟨o, ho, hout, htrail, -⟩ := replaceStep_trail E h hro
      exact htrail
  have htrail := Machine.run_map (g := fun st : Pass W => trail s st.1) hstep hfollows hstart hfinds
  have hvacant := Machine.along_map (g := fun st : Pass W => trail s st.1)
    (C := Vacant s.activeOrders) hstep hfollows hstart hfinds
  have hkept := Machine.run_iff_along (P := Kept s)
    (C := fun st ro => Vacant s.activeOrders (trail s st.1) ro) hstep
    (fun st ro h hro => kept_replaceStep E h hro) hstart hfinds
  have hempty : Kept s (s, []) := by
    intro k hk
    rw [trail_self s s rfl]
    exact .inr ⟨k, hk, if_pos hk⟩
  have hself : trail s s = .start s.activeOrders := trail_self s s rfl
  simp only [hself] at htrail hvacant
  rw [preserves_iff E rfl (Machine.run_of_along hstep hstart hfinds), hkept, hvacant, htrail,
    and_iff_right hempty, KeepsApart]

instance (m : KeyedMap Key OuchOrder) (p : Trail) (ro : OuchReplaceOrderReq) :
    Decidable (Vacant m p ro) :=
  match hm : p.moves m ro, hk : p.holder ro.newToken.str with
  | false, _ => isTrue fun h => absurd (hm.symm.trans h) Bool.false_ne_true
  | true, none => isTrue fun _ _ h => absurd (h.symm.trans hk) (Option.some_ne_none _)
  | true, some k =>
    if hr : k ∈ p.reported then isTrue fun _ _ h => Option.some.inj (hk.symm.trans h) ▸ hr
    else isFalse fun h => hr (h hm k hk)

/-- An order that changes its token twice in one batch. -/
theorem preserves_renamed_twice :
    Preserves quietEnv (beforeReplace quietEnv (run quietEnv () (loggedIn ++
      [enterPacket 'a' 100, enterPacket 'b' 100, replacePacket 'a' 'c' 50,
        replacePacket 'c' 'd' 80]))) :=
  (replaceLogic_preserves quietEnv _ (by decide +kernel)).mpr
    ⟨by decide +kernel, List.forall_mem_nil _⟩

/-- An order that is replaced under its own token is gone without a report. -/
theorem not_preserves_same_token :
    ¬ ∀ (W : Type) (E : Env W) (w : W) (es : List Event),
      Machine.Along (replaceStep E) FindsOrder (beforeReplace E (run E w es), [])
        (beforeReplace E (run E w es)).pendingReplace →
      Preserves E (beforeReplace E (run E w es)) := by
  intro h
  obtain ⟨place, hplace, -⟩ := h Unit quietEnv ()
    (loggedIn ++ [enterPacket 'a' 100, replacePacket 'a' 'a' 150]) (by decide +kernel)
  generalize hs : beforeReplace quietEnv (run quietEnv () (loggedIn ++
    [enterPacket 'a' 100, replacePacket 'a' 'a' 150])) = s at hplace
  have hbefore : (tokenOf 'a').str ∈ s.activeOrders := by
    rw [← hs]
    decide +kernel
  have hafter : (replaceLogic quietEnv s).activeOrders.keys = [] := by
    rw [← hs]
    decide +kernel
  have hsilent : (trail s (replaceLogic quietEnv s)).reported = [] := by
    rw [← hs]
    decide +kernel
  obtain ⟨o, ho⟩ := KeyedMap.mem_iff_lookup.mp hbefore
  obtain ⟨-, o', ho', -⟩ := hplace _ o ho (by rw [hsilent]; exact List.not_mem_nil)
  have hmem := AList.mem_keys.mp (KeyedMap.mem_of_lookup ho')
  rw [hafter] at hmem
  exact List.not_mem_nil hmem

end OuchSession

end Evtsim
