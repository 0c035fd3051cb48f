import Evtsim.Boe.Filling

/-!
# Orders modified down to nothing

`modify_logic` collects the token of an order that it modifies down before it moves the order to its new
key, and erases what it has collected at the end. `follow` takes one order through the requests, on its
own. Where the new tokens are free, the loop moves every order as `follow` says (`followed_run`), and
`removesModifiedDown_iff` says when the collected tokens are those of the orders modified down: for
orders that carry their own tokens, when there are none.
-/

namespace Evtsim

open Wire Boe Machine Session

namespace BoeSession

variable {W : Type} (E : Env W)

/-! ## One order and the requests -/

/-- What a request makes of an order that is held under a key. -/
def followStep (p : Key × BoeOrder) (mo : BoeModifyOrderReq) : Key × BoeOrder :=
  if p.1 = mo.origToken.str then (mo.token.str, modified p.2 mo) else p

/-- Where and how an order is behind the requests. -/
def follow (q : List BoeModifyOrderReq) (p : Key × BoeOrder) : Key × BoeOrder :=
  Machine.run followStep p q

/-- The request is for this order, and as much as it asks for has been executed. -/
def Ends (p : Key × BoeOrder) (mo : BoeModifyOrderReq) : Prop :=
  p.1 = mo.origToken.str ∧ (mo.qty.toNat : ℤ) ≤ p.2.executedQty

instance (p : Key × BoeOrder) (mo : BoeModifyOrderReq) : Decidable (Ends p mo) :=
  inferInstanceAs (Decidable (_ ∧ _))

/-- Some request modifies the order down to nothing. -/
def ModifiedDown (q : List BoeModifyOrderReq) (p : Key × BoeOrder) : Prop :=
  Sometime followStep Ends p q

instance (q : List BoeModifyOrderReq) (p : Key × BoeOrder) : Decidable (ModifiedDown q p) :=
  decidableSometime _ _ _ _

/-- Some request modifies an active order down that carries this token at that point. -/
def Collected (A : KeyedMap Key BoeOrder) (q : List BoeModifyOrderReq) (t : Key) : Prop :=
  ∃ k o, A.lookup k = some o ∧
    Sometime followStep (fun p mo => Ends p mo ∧ t = p.2.token.str) (k, o) q

/-- The new tokens of the requests differ from each other and from the keys of the active orders. -/
structure Fresh (A : KeyedMap Key BoeOrder) (q : List BoeModifyOrderReq) : Prop where
  distinct : (q.map fun mo => mo.token.str).Nodup
  vacant : ∀ mo ∈ q, mo.token.str ∉ A

/-- The orders that are active behind `modify_logic` are those from before that were not modified down,
each where and how the requests leave it. -/
def RemovesModifiedDown (s : BoeSession W) : Prop :=
  ∀ k x, (modifyLogic E s).activeOrders.lookup k = some x ↔
    ∃ k₀ o, s.activeOrders.lookup k₀ = some o ∧ follow s.pendingModify (k₀, o) = (k, x) ∧
      ¬ ModifiedDown s.pendingModify (k₀, o)

variable {A : KeyedMap Key BoeOrder} {q : List BoeModifyOrderReq} {mo : BoeModifyOrderReq}
  {p : Key × BoeOrder}

/-- A request more takes an order one step further. -/
theorem follow_concat (q : List BoeModifyOrderReq) (mo : BoeModifyOrderReq) (p : Key × BoeOrder) :
    follow (q ++ [mo]) p = followStep (follow q p) mo := by
  simp [follow, run_append]

/-- An order is where it was, or under the new token of a request. -/
theorem key_follow (q : List BoeModifyOrderReq) (p : Key × BoeOrder) :
    (follow q p).1 = p.1 ∨ (follow q p).1 ∈ q.map fun mo => mo.token.str := by
  induction q using List.reverseRecOn with
  | nil => exact .inl rfl
  | append_singleton q mo ih =>
    rw [follow_concat, List.map_append, List.mem_append]
    unfold followStep
    split
    · exact .inr (.inr (by simp))
    · exact ih.imp_right .inl

/-- An order that carries its own token goes on doing so. -/
theorem token_follow (q : List BoeModifyOrderReq) (hp : p.1 = p.2.token.str) :
    (follow q p).1 = (follow q p).2.token.str := by
  induction q using List.reverseRecOn with
  | nil => exact hp
  | append_singleton q mo ih =>
    rw [follow_concat]
    unfold followStep
    split
    · rfl
    · exact ih

/-- Requests before the last ones are as fresh as all of them. -/
theorem Fresh.of_append {q' : List BoeModifyOrderReq} (h : Fresh A (q ++ q')) : Fresh A q := by
  refine ⟨?_, fun mo hmo => h.vacant mo (List.mem_append_left q' hmo)⟩
  have hdistinct := h.distinct
  rw [List.map_append] at hdistinct
  exact hdistinct.of_append_left

/-- A collected token stays collected. -/
theorem Collected.concat {t : Key} (h : Collected A q t) : Collected A (q ++ [mo]) t := by
  obtain ⟨k, o, ho, hsome⟩ := h
  exact ⟨k, o, ho, sometime_concat.mpr (.inl hsome)⟩

/-- The new token of the next request is no place of any active order. -/
theorem Fresh.next (h : Fresh A (q ++ [mo])) {k : Key} {o : BoeOrder} (ho : A.lookup k = some o) :
    (follow q (k, o)).1 ≠ mo.token.str := by
  intro heq
  rcases key_follow q (k, o) with hkey | hkey
  · apply h.vacant mo (by simp)
    rw [← heq, hkey]
    exact KeyedMap.mem_of_lookup ho
  · have hdistinct := h.distinct
    rw [List.map_append, List.nodup_append] at hdistinct
    exact hdistinct.2.2 _ hkey _ (by simp) heq

/-! ## The loop -/

/-- The loop behind the requests `q`: it holds every order where and how `follow` says, no two in one
place, and has collected the tokens of the orders modified down. -/
structure Followed (A : KeyedMap Key BoeOrder) (q : List BoeModifyOrderReq) (st : Pass W) : Prop where
  held : ∀ k x, st.1.activeOrders.lookup k = some x ↔
    ∃ k₀ o, A.lookup k₀ = some o ∧ follow q (k₀, o) = (k, x)
  apart : ∀ {k₁ o₁ k₂ o₂}, A.lookup k₁ = some o₁ → A.lookup k₂ = some o₂ →
    (follow q (k₁, o₁)).1 = (follow q (k₂, o₂)).1 → k₁ = k₂
  done : ∀ t, t ∈ st.2 ↔ Collected A q t

/-- Before the first request every order is where it was. -/
theorem followed_start (s : BoeSession W) : Followed s.activeOrders [] ((s, []) : Pass W) where
  held k x := by
    constructor
    · intro h
      exact ⟨k, x, h, rfl⟩
    · rintro ⟨k₀, o, ho, heq⟩
      cases heq
      exact ho
  apart _ _ h := h
  done t := by simp [Collected, Sometime]

/-- One request for an order that is not active. -/
theorem Followed.absent {st : Pass W} (h : Followed A q st)
    (habsent : mo.origToken.str ∉ st.1.activeOrders) : Followed A (q ++ [mo]) st := by
  -- no order is where the request looks for one
  have hmiss : ∀ k o, A.lookup k = some o → (follow q (k, o)).1 ≠ mo.origToken.str := by
    intro k o ho heq
    apply habsent
    rw [← heq]
    exact KeyedMap.mem_of_lookup ((h.held _ _).mpr ⟨k, o, ho, rfl⟩)
  have hsame : ∀ k o, A.lookup k = some o → follow (q ++ [mo]) (k, o) = follow q (k, o) := by
    intro k o ho
    rw [follow_concat, followStep, if_neg (hmiss k o ho)]
  refine ⟨?_, ?_, ?_⟩
  · intro k x
    rw [h.held]
    constructor
    · rintro ⟨k₀, o, ho, heq⟩
      exact ⟨k₀, o, ho, (hsame k₀ o ho).trans heq⟩
    · rintro ⟨k₀, o, ho, heq⟩
      exact ⟨k₀, o, ho, (hsame k₀ o ho).symm.trans heq⟩
  · intro k₁ o₁ k₂ o₂ ho₁ ho₂ heq
    rw [hsame k₁ o₁ ho₁, hsame k₂ o₂ ho₂] at heq
    exact h.apart ho₁ ho₂ heq
  · intro t
    rw [h.done]
    unfold Collected
    constructor
    · exact Collected.concat
    · rintro ⟨k, o, ho, hsome⟩
      rcases sometime_concat.mp hsome with hearlier | ⟨⟨hkey, -⟩, -⟩
      · exact ⟨k, o, ho, hearlier⟩
      · exact absurd hkey (hmiss k o ho)

/-- One request for an active order: it moves that order, and no other order is where it takes it from or
where it brings it to. -/
theorem Followed.turn {st : Pass W} (h : Followed A q st) (hfresh : Fresh A (q ++ [mo]))
    {o : BoeOrder} (ho : st.1.activeOrders.lookup mo.origToken.str = some o) :
    ∃ k₀ o₀, A.lookup k₀ = some o₀ ∧ follow q (k₀, o₀) = (mo.origToken.str, o) ∧
      follow (q ++ [mo]) (k₀, o₀) = (mo.token.str, modified o mo) ∧
      ∀ k x, A.lookup k = some x → k = k₀ ∧ x = o₀ ∨
        follow (q ++ [mo]) (k, x) = follow q (k, x) ∧ (follow q (k, x)).1 ≠ mo.origToken.str ∧
          (follow q (k, x)).1 ≠ mo.token.str := by
  obtain ⟨k₀, o₀, ho₀, hk₀⟩ := (h.held _ _).mp ho
  have hkey : (follow q (k₀, o₀)).1 = mo.origToken.str := congrArg Prod.fst hk₀
  refine ⟨k₀, o₀, ho₀, hk₀, ?_, ?_⟩
  · rw [follow_concat, followStep, if_pos hkey, hk₀]
  · intro k x hx
    by_cases heq : (follow q (k, x)).1 = mo.origToken.str
    · obtain rfl := h.apart hx ho₀ (heq.trans hkey.symm)
      exact .inl ⟨rfl, Option.some.inj (hx.symm.trans ho₀)⟩
    · refine .inr ⟨?_, heq, hfresh.next hx⟩
      rw [follow_concat, followStep, if_neg heq]

/-- A request that finds an order takes it to its new token. -/
theorem Followed.found {st st' : Pass W} (h : Followed A q st) (hfresh : Fresh A (q ++ [mo]))
    {o : BoeOrder} (ho : st.1.activeOrders.lookup mo.origToken.str = some o)
    (hact : ∀ k, st'.1.activeOrders.lookup k =
      if k = mo.token.str then some (modified o mo)
      else if k = mo.origToken.str then none
      else st.1.activeOrders.lookup k)
    (hdone : st'.2 = if (mo.qty.toNat : ℤ) ≤ o.executedQty then st.2 ++ [o.token.str] else st.2) :
    Followed A (q ++ [mo]) st' := by
  obtain ⟨k₀, o₀, ho₀, hfrom, hto, hcases⟩ := h.turn hfresh ho
  refine ⟨fun k x => ⟨?_, ?_⟩, ?_, ?_⟩
  · -- what is held now is the moved order, or was held before and has not moved
    intro hx
    rw [hact] at hx
    split at hx
    · rename_i hk
      refine ⟨k₀, o₀, ho₀, ?_⟩
      rw [hto, hk, Option.some.inj hx]
    split at hx
    · cases hx
    · rename_i hold
      obtain ⟨k', y, hy, heq⟩ := (h.held k x).mp hx
      rcases hcases k' y hy with ⟨rfl, rfl⟩ | ⟨hsame, -, -⟩
      · rw [hfrom] at heq
        exact absurd (congrArg Prod.fst heq).symm hold
      · exact ⟨k', y, hy, hsame.trans heq⟩
  · -- the moved order is under its new token, and every other one where it was
    rintro ⟨k', y, hy, heq⟩
    rw [hact]
    rcases hcases k' y hy with ⟨rfl, rfl⟩ | ⟨hsame, hold, hnew⟩
    · rw [hto] at heq
      cases heq
      exact if_pos rfl
    · rw [hsame] at heq
      rw [heq] at hold hnew
      rw [if_neg hnew, if_neg hold]
      exact (h.held k x).mpr ⟨k', y, hy, heq⟩
  · -- no other order is under the new token
    intro k₁ o₁ k₂ o₂ ho₁ ho₂ heq
    rcases hcases k₁ o₁ ho₁ with ⟨rfl, rfl⟩ | ⟨hsame₁, -, hnew₁⟩ <;>
      rcases hcases k₂ o₂ ho₂ with ⟨rfl, rfl⟩ | ⟨hsame₂, -, hnew₂⟩
    · rfl
    · rw [hto, hsame₂] at heq
      exact absurd heq.symm hnew₂
    · rw [hto, hsame₁] at heq
      exact absurd heq hnew₁
    · rw [hsame₁, hsame₂] at heq
      exact h.apart ho₁ ho₂ heq
  · -- the step collects the token it met exactly if the modification ends the order
    intro t
    rw [hdone]
    constructor
    · intro ht
      split at ht
      · rename_i hle
        rcases List.mem_append.mp ht with ht | ht
        · exact ((h.done t).mp ht).concat
        · refine ⟨k₀, o₀, ho₀, sometime_concat.mpr (.inr ?_)⟩
          show Ends (follow q (k₀, o₀)) mo ∧ t = (follow q (k₀, o₀)).2.token.str
          rw [hfrom]
          exact ⟨⟨rfl, hle⟩, List.mem_singleton.mp ht⟩
      · exact ((h.done t).mp ht).concat
    · rintro ⟨k, x, hx, hsome⟩
      rcases sometime_concat.mp hsome with hearlier | hlast
      · have ht := (h.done t).mpr ⟨k, x, hx, hearlier⟩
        split
        · exact List.mem_append_left _ ht
        · exact ht
      · replace hlast : Ends (follow q (k, x)) mo ∧ t = (follow q (k, x)).2.token.str := hlast
        rcases hcases k x hx with ⟨rfl, rfl⟩ | ⟨-, hold, -⟩
        · rw [hfrom] at hlast
          rw [if_pos hlast.1.2, hlast.2]
          exact List.mem_append_right _ (List.mem_singleton_self _)
        · exact absurd hlast.1.1 hold

/-- The loop moves every order as `follow` says. -/
theorem followed_run (s : BoeSession W) {q : List BoeModifyOrderReq} (hfresh : Fresh s.activeOrders q) :
    Followed s.activeOrders q (Machine.run (modifyStep E) (s, []) q) := by
  induction q using List.reverseRecOn with
  | nil => exact followed_start s
  | append_singleton q mo ih =>
    have h := ih hfresh.of_append
    rw [run_append, run_cons, run_nil]
    rcases modifyStep_cases E (Machine.run (modifyStep E) (s, []) q) mo with
      ⟨habsent, hstep⟩ | ⟨o, ho, w, A, bo, m, -, hbo, hA, hstep⟩
    · rw [hstep]
      exact h.absent habsent
    · -- the new token is free, so the order is not replaced in place
      obtain ⟨k₀, o₀, ho₀, hk₀⟩ := (h.held _ _).mp ho
      have hdiffers : mo.token.str ≠ mo.origToken.str := by
        intro heq
        apply hfresh.next ho₀
        rw [hk₀, heq]
      obtain rfl : bo = modified o mo := (hbo.resolve_right fun h => hdiffers h.1).2
      rw [hstep]
      exact h.found hfresh ho hA rfl

/-! ## The end of the pass -/

/-- A collected token was one at the start or is the new token of a request. -/
theorem Collected.known (hown : KeysAgree A) {t : Key} (h : Collected A q t) :
    t ∈ A ∨ t ∈ q.map fun mo => mo.token.str := by
  obtain ⟨k, o, ho, hsome⟩ := h
  induction q using List.reverseRecOn with
  | nil => exact hsome.elim
  | append_singleton q mo ih =>
    rw [List.map_append, List.mem_append]
    rcases sometime_concat.mp hsome with hearlier | ⟨-, ht⟩
    · exact (ih hearlier).imp_right .inl
    · have hkey : t = (follow q (k, o)).1 := ht.trans (token_follow q (hown k o ho)).symm
      rw [hkey]
      rcases key_follow q (k, o) with hsame | hnew
      · rw [hsame]
        exact .inl (KeyedMap.mem_of_lookup ho)
      · exact .inr (.inl hnew)

/-- Where orders carry their own tokens, none ends up under a token that is collected: no order is
brought to where another one was taken from. -/
theorem not_collected_follow (hfresh : Fresh A q) (hown : KeysAgree A) (p : Key × BoeOrder) :
    ¬ Collected A q (follow q p).1 := by
  induction q using List.reverseRecOn with
  | nil =>
    rintro ⟨k', o', ho', hsome⟩
    exact hsome
  | append_singleton q mo ih =>
    rintro ⟨k', o', ho', hsome⟩
    rw [follow_concat, followStep] at hsome
    rcases sometime_concat.mp hsome with hearlier | ⟨hends, ht⟩
    · have hcollected : Collected A q _ := ⟨k', o', ho', hearlier⟩
      split at hcollected
      · -- the new token has not been in use before
        rcases hcollected.known hown with hactive | hused
        · exact hfresh.vacant mo (by simp) hactive
        · have hdistinct := hfresh.distinct
          rw [List.map_append, List.nodup_append] at hdistinct
          exact hdistinct.2.2 _ hused _ (by simp) rfl
      · exact ih hfresh.of_append hcollected
    · -- the last request collects the key that it takes its order from
      have hfrom : (follow q (k', o')).2.token.str = mo.origToken.str :=
        (token_follow q (hown k' o' ho')).symm.trans hends.1
      replace ht := ht.trans hfrom
      split at ht
      · exact hfresh.next ho' (hends.1.trans ht.symm)
      · rename_i hkeeps
        exact hkeeps ht

/-- The orders modified down are removed, and no others, exactly when these end up under tokens that are
collected and the others do not. -/
theorem removes_iff_collected (s : BoeSession W) (hfresh : Fresh s.activeOrders s.pendingModify) :
    RemovesModifiedDown E s ↔ ∀ k o, s.activeOrders.lookup k = some o →
      (Collected s.activeOrders s.pendingModify (follow s.pendingModify (k, o)).1 ↔
        ModifiedDown s.pendingModify (k, o)) := by
  -- every order is followed to where it is at the end of the queue
  have h := followed_run E s hfresh
  have hfinal : ∀ k x, (modifyLogic E s).activeOrders.lookup k = some x ↔
      ¬ Collected s.activeOrders s.pendingModify k ∧
        ∃ k₀ o, s.activeOrders.lookup k₀ = some o ∧ follow s.pendingModify (k₀, o) = (k, x) := by
    intro k x
    rw [← h.done, ← h.held]
    exact lookup_finishPass_eq_some
  constructor
  · intro hremoves k o ho
    have hheld := (hfinal (follow s.pendingModify (k, o)).1 (follow s.pendingModify (k, o)).2).symm.trans
      (hremoves _ _)
    rw [and_iff_left ⟨k, o, ho, rfl⟩] at hheld
    rw [← not_iff_not, hheld]
    constructor
    · -- no other order has come to this place
      rintro ⟨k', o', ho', heq, hnot⟩
      obtain rfl := h.apart ho' ho (congrArg Prod.fst heq)
      obtain rfl := Option.some.inj (ho'.symm.trans ho)
      exact hnot
    · intro hnot
      exact ⟨k, o, ho, rfl, hnot⟩
  · intro hiff k x
    rw [hfinal]
    constructor
    · rintro ⟨hnot, k₀, o, ho, heq⟩
      refine ⟨k₀, o, ho, heq, fun hdown => hnot ?_⟩
      have hcollected := (hiff k₀ o ho).mpr hdown
      rw [heq] at hcollected
      exact hcollected
    · rintro ⟨k₀, o, ho, heq, hnot⟩
      refine ⟨fun hcollected => hnot ((hiff k₀ o ho).mp ?_), k₀, o, ho, heq⟩
      rw [heq]
      exact hcollected

/-- **Orders modified down are removed**, and no others, exactly when these end up under tokens that are
collected and the others do not. Where orders carry their own tokens, this is when no order is modified
down at all. -/
theorem removesModifiedDown_iff (s : BoeSession W) (hfresh : Fresh s.activeOrders s.pendingModify) :
    (RemovesModifiedDown E s ↔ ∀ k o, s.activeOrders.lookup k = some o →
      (Collected s.activeOrders s.pendingModify (follow s.pendingModify (k, o)).1 ↔
        ModifiedDown s.pendingModify (k, o))) ∧
    (KeysAgree s.activeOrders → (RemovesModifiedDown E s ↔
      ∀ k o, s.activeOrders.lookup k = some o → ¬ ModifiedDown s.pendingModify (k, o))) := by
  have hremoves := removes_iff_collected E s hfresh
  refine ⟨hremoves, fun hown => hremoves.trans ?_⟩
  constructor
  · intro h k o ho hdown
    exact not_collected_follow hfresh hown (k, o) ((h k o ho).mpr hdown)
  · intro h k o ho
    exact iff_of_false (not_collected_follow hfresh hown (k, o)) (h k o ho)

/-- An order of 100 shares that is moved and halved stays. -/
theorem removesModifiedDown_halved :
    RemovesModifiedDown quietEnv (run quietEnv ()
      [newPacket 'a' [100, 0, 0, 0], modifyPacket 'a' 'b' [50, 0, 0, 0]]) := by
  refine ((removesModifiedDown_iff quietEnv _ ⟨by decide +kernel, by decide +kernel⟩).2 ?_).mpr ?_
  · exact KeyedMap.forall_lookup_iff.mpr (by decide +kernel)
  · exact KeyedMap.forall_lookup_iff.mpr (by decide +kernel)

/-- An order of 200 shares, half of them executed, is modified to 100 shares under another token: it is
collected under the old token and stays under the new one. -/
theorem not_removesModifiedDown :
    ¬ ∀ (W : Type) (E : Env W) (w : W) (es : List Event),
      ((run E w es).pendingModify.map fun mo => mo.origToken.str).Nodup →
      Fresh (run E w es).activeOrders (run E w es).pendingModify → RemovesModifiedDown E (run E w es) := by
  intro h
  have hremoves := h Unit quietEnv ()
    [newPacket 'a' [200, 0, 0, 0], .marketLogic, modifyPacket 'a' 'b' [100, 0, 0, 0]]
    (by decide +kernel) ⟨by decide +kernel, by decide +kernel⟩
  generalize hs : run quietEnv ()
    [newPacket 'a' [200, 0, 0, 0], .marketLogic, modifyPacket 'a' 'b' [100, 0, 0, 0]] = s at hremoves
  have hactive : (tokenOf 'b').str ∈ (modifyLogic quietEnv s).activeOrders := by
    rw [← hs]
    decide +kernel
  obtain ⟨x, hx⟩ := KeyedMap.mem_iff_lookup.mp hactive
  obtain ⟨k, o, ho, -, hnot⟩ := (hremoves _ x).mp hx
  apply hnot
  have hall : ∀ k o, s.activeOrders.lookup k = some o → ModifiedDown s.pendingModify (k, o) := by
    rw [← hs]
    exact KeyedMap.forall_lookup_iff.mpr (by decide +kernel)
  exact hall k o ho

end BoeSession

end Evtsim
