import Evtsim.Boe.Steps
import Evtsim.Ouch.Steps

/-!
# Requests without a login

Of the order handlers of the two sessions only `ouch_session::enter_order` asks for a login.
`inert_runs` says which packets are without effect while a session is not logged in: those that the
other tests of their handler turn away.
-/

namespace Evtsim

variable {W : Type} (E : Env W)

/-! ## The OUCH session -/

namespace OuchSession

open Ouch Session

/-- An accepted order is reported. -/
def isAccepted : Ouch.OutMsg → Bool
  | .orderAccepted _ => true
  | _ => false

/-- The books and the queues stay, and no order is accepted. -/
abbrev Inert (s s' : OuchSession W) : Prop := Session.Idle (fun _ => ()) isAccepted s s'

/-- A packet that comes without a login has no effect on orders. -/
def InertWithoutLogin (s : OuchSession W) : Event → Prop
  | .packet p => s.state = .notLoggedIn → Inert s (step E s (.packet p))
  | _ => True

/-- A handler turns the request away for another reason than a login. -/
def Refuses (s : OuchSession W) : Request → Prop
  | .cancel co => co.token.str ∉ s.activeOrders ∨ (E.gate .cancelOrder s.env).1 = false
  | .modify mo => mo.token.str ∉ s.activeOrders ∨ (E.gate .modifyOrder s.env).1 = false
  | .replace _ => (E.gate .replaceOrder s.env).1 = false
  | _ => True

/-- Every valid packet that comes without a login is turned away. -/
def RefusesWithoutLogin (s : OuchSession W) : Event → Prop
  | .packet p => s.state = .notLoggedIn → s.l = true → ∀ r, request p = some r → Refuses E s r
  | _ => True

/-- A message that reports no order accepts none. -/
theorem isAccepted_of_isReport (m : Ouch.OutMsg) (h : isReport m = false) : isAccepted m = false := by
  cases m with
  | orderAccepted m => exact absurd h Bool.noConfusion
  | _ => rfl

/-- Without a login a request is without effect exactly when its handler turns it away. -/
theorem inert_handle {s : OuchSession W} (hs : s.state = .notLoggedIn) (r : Request) :
    Inert s (handle E s r) ↔ Refuses E s r := by
  have hgrows : ∀ {α : Type} (xs : List α) (x : α), xs ++ [x] ≠ xs := fun xs x h =>
    List.cons_ne_nil x [] (List.append_right_eq_self.mp h)
  cases r with
  | login => exact iff_of_true ((idle_handleLoginRequest E s).mono isAccepted_of_isReport) trivial
  | logout =>
    exact iff_of_true ⟨rfl, rfl, rfl, rfl, rfl, rfl, [], (List.append_nil _).symm,
      List.forall_mem_nil _⟩ trivial
  | heartbeat =>
    exact iff_of_true ⟨rfl, rfl, rfl, rfl, rfl, rfl, [], (List.append_nil _).symm,
      List.forall_mem_nil _⟩ trivial
  | enter eo =>
    rcases enterOrder_cases E s eo with ⟨-, w, h | ⟨m, h⟩⟩ | ⟨hacc, -⟩
    · rw [handle, h]
      exact iff_of_true (idle_inEnv s w) trivial
    · rw [handle, h]
      exact iff_of_true (idle_emit s w rfl) trivial
    · -- an order is accepted only while logged in
      exact absurd (hs.symm.trans hacc.2.1) (by decide)
  | replace ro =>
    rcases replaceOrder_cases E s ro with ⟨hgate, w, h⟩ | ⟨hgate, w, h⟩ <;> rw [handle, h]
    · exact iff_of_true (idle_inEnv s w) hgate
    · exact iff_of_false (fun hinert => hgrows _ _ hinert.pendingReplace)
        fun href => Bool.false_ne_true (href.symm.trans hgate)
  | cancel co =>
    rcases cancelOrder_cases E s co with ⟨href, w, h⟩ | ⟨hact, hgate, w, h⟩ <;> rw [handle, h]
    · exact iff_of_true (idle_inEnv s w) href
    · exact iff_of_false (fun hinert => hgrows _ _ hinert.pendingCancel)
        fun href => href.elim (fun hnot => hnot hact)
          fun hg => Bool.false_ne_true (hg.symm.trans hgate)
  | modify mo =>
    rcases modifyOrder_cases E s mo with ⟨href, w, h⟩ | ⟨hact, hgate, w, h⟩ <;> rw [handle, h]
    · exact iff_of_true (idle_inEnv s w) href
    · exact iff_of_false (fun hinert => hgrows _ _ hinert.pendingModify)
        fun href => href.elim (fun hnot => hnot hact)
          fun hg => Bool.false_ne_true (hg.symm.trans hgate)

/-- An event is inert without a login exactly if its packet is turned away. -/
theorem inertWithoutLogin_iff (s : OuchSession W) (e : Event) :
    InertWithoutLogin E s e ↔ RefusesWithoutLogin E s e := by
  cases e with
  | packet p =>
    refine imp_congr_right fun hs => ?_
    rcases step_packet E s p with ⟨hnone, hsame⟩ | ⟨r, hl, hr, hstep⟩
    · rw [hsame]
      refine iff_of_true (Idle.refl s) fun hl r hr => ?_
      rcases hnone with h | h
      · exact absurd (h.symm.trans hl) Bool.false_ne_true
      · rw [h] at hr
        cases hr
    · rw [hstep, inert_handle E hs]
      refine ⟨fun href _ r' hr' => ?_, fun h => h hl r hr⟩
      obtain rfl : r = r' := Option.some.inj (hr.symm.trans hr')
      exact href
  | _ => exact Iff.rfl

end OuchSession

/-! ## The BOE session -/

namespace BoeSession

open Boe Session

/-- An accepted order is reported. -/
def isAck : Boe.OutMsg → Bool
  | .orderAck _ => true
  | _ => false

/-- The books and the queues stay, and no order is accepted. -/
abbrev Inert (s s' : BoeSession W) : Prop := Session.Idle (fun _ => ()) isAck s s'

/-- A packet that comes without a login has no effect on orders. -/
def InertWithoutLogin (s : BoeSession W) : Event → Prop
  | .packet p => s.state = .notLoggedIn → Inert s (step E s (.packet p))
  | _ => True

/-- A handler turns the request away for another reason than a login. A cancel leaves a token alone
only if its order is there and has nothing remaining. -/
def Refuses (s : BoeSession W) : Request → Prop
  | .enter no => no.token.str ∈ s.activeOrders ∨ (E.gate .newOrder s.env).1 = false
  | .cancel co => ∃ o, s.activeOrders.lookup co.origToken.str = some o ∧ o.remainingQty ≤ 0
  | .modify mo => mo.origToken.str ∉ s.activeOrders ∧ mo.origToken.str ∉ s.finishedOrders ∨
      (E.gate .modifyOrder s.env).1 = false
  | _ => True

/-- Every packet that comes without a login is turned away. -/
def RefusesWithoutLogin (s : BoeSession W) : Event → Prop
  | .packet p => s.state = .notLoggedIn → ∀ r, request p = some r → Refuses E s r
  | _ => True

/-- A message without a sequence number acknowledges no order. -/
theorem isAck_of_isSequenced (m : Boe.OutMsg) (h : isSequenced m = false) : isAck m = false := by
  cases m with
  | orderAck m => exact absurd h Bool.noConfusion
  | _ => rfl

/-- A request is without effect exactly when its handler turns it away, with a login or without. -/
theorem inert_handle (s : BoeSession W) (r : Request) :
    Inert s (handle E s r) ↔ Refuses E s r := by
  have hgrows : ∀ {α : Type} (xs : List α) (x : α), xs ++ [x] ≠ xs := fun xs x h =>
    List.cons_ne_nil x [] (List.append_right_eq_self.mp h)
  cases r with
  | login req => exact iff_of_true ((idle_handleLoginRequest E s req).mono isAck_of_isSequenced) trivial
  | heartbeat =>
    exact iff_of_true ⟨rfl, rfl, rfl, rfl, rfl, rfl, [], (List.append_nil _).symm,
      List.forall_mem_nil _⟩ trivial
  | enter no =>
    rcases enterOrder_cases E s no with ⟨hnot, w, m, h⟩ | ⟨hacc, w, d, m, -, -, -, h⟩ <;>
      rw [handle, h]
    · refine iff_of_true (idle_emit s w rfl) ?_
      by_cases hact : no.token.str ∈ s.activeOrders
      · exact .inl hact
      · exact .inr (Bool.eq_false_iff.mpr fun hgate => hnot ⟨hact, hgate⟩)
    · refine iff_of_false (fun hinert => hacc.1 ?_) fun href => href.elim (fun hact => hacc.1 hact)
        fun hg => Bool.false_ne_true (hg.symm.trans hacc.2)
      rw [← hinert.activeOrders]
      exact (AList.mem_insert _).mpr (.inl rfl)
  | cancel co =>
    rcases cancelOrder_cases E s co with ⟨⟨o, ho, hpos⟩, h⟩ | ⟨hnot, hrest⟩
    · rw [handle, h]
      refine iff_of_false (fun hinert => hgrows _ _ hinert.pendingCancel) ?_
      rintro ⟨o', ho', hle⟩
      obtain rfl : o = o' := Option.some.inj (ho.symm.trans ho')
      omega
    · have hidle : Idle (s.withActive (KeyedMap.touch co.origToken.str
          (entry E.boeOrder s co.origToken.str) s.activeOrders)) (cancelOrder E s co) := by
        obtain ⟨w, ⟨-, h⟩ | ⟨-, m, h⟩⟩ := hrest <;> rw [h]
        · exact idle_inEnv _ w
        · exact idle_emit _ w rfl
      have hinert := hidle.mono isAck_of_isSequenced
      rw [handle]
      rcases hlook : s.activeOrders.lookup co.origToken.str with _ | o
      · -- the subscript has made an entry
        refine iff_of_false (fun hinert' => ?_) fun hrejects => hrejects.elim fun _ ho =>
          Option.some_ne_none _ (ho.1.symm.trans hlook)
        have hin : co.origToken.str ∈ (cancelOrder E s co).activeOrders := by
          rw [hinert.activeOrders]
          exact KeyedMap.mem_touch.mpr (.inl rfl)
        rw [hinert'.activeOrders] at hin
        exact KeyedMap.lookup_eq_none.mp hlook hin
      · have hsame : s.withActive (KeyedMap.touch co.origToken.str (entry E.boeOrder s co.origToken.str)
            s.activeOrders) = s := by
          rw [KeyedMap.touch_of_mem _ (KeyedMap.mem_of_lookup hlook)]
          rfl
        rw [hsame] at hinert
        refine iff_of_true hinert ⟨o, hlook, ?_⟩
        by_contra hpos
        exact hnot ⟨o, hlook, by omega⟩
  | modify mo =>
    rcases modifyOrder_cases E s mo with ⟨href, w, m, h⟩ | ⟨hknown, hgate, w, h⟩ <;> rw [handle, h]
    · exact iff_of_true (idle_emit s w rfl) href
    · exact iff_of_false (fun hinert => hgrows _ _ hinert.pendingModify)
        fun href => href.elim hknown fun hg => Bool.false_ne_true (hg.symm.trans hgate)

/-- An event is inert without a login exactly if its packet is turned away. -/
theorem inertWithoutLogin_iff (s : BoeSession W) (e : Event) :
    InertWithoutLogin E s e ↔ RefusesWithoutLogin E s e := by
  cases e with
  | packet p =>
    refine imp_congr_right fun _ => ?_
    rcases step_packet E s p with ⟨hnone, hsame⟩ | ⟨r, hr, hstep⟩
    · rw [hsame]
      refine iff_of_true (Idle.refl s) fun r hr => ?_
      rw [hnone] at hr
      cases hr
    · rw [hstep, inert_handle E]
      refine ⟨fun href r' hr' => ?_, fun h => h r hr⟩
      obtain rfl : r = r' := Option.some.inj (hr.symm.trans hr')
      exact href
  | _ => exact Iff.rfl

end BoeSession

/-! ## Runs of both -/

/-- **Requests without a login.** In a run of either session every packet that comes without a login
is without effect on orders exactly when each of them is refused for another reason. -/
theorem inert_runs (w : W) (es : List OuchSession.Event) (es' : List BoeSession.Event) :
    (Machine.Along (OuchSession.step E) (OuchSession.InertWithoutLogin E) (OuchSession.init E w) es ↔
      Machine.Along (OuchSession.step E) (OuchSession.RefusesWithoutLogin E)
        (OuchSession.init E w) es) ∧
    (Machine.Along (BoeSession.step E) (BoeSession.InertWithoutLogin E) (BoeSession.init E w) es' ↔
      Machine.Along (BoeSession.step E) (BoeSession.RefusesWithoutLogin E)
        (BoeSession.init E w) es') :=
  ⟨Machine.along_congr (I := fun _ => True) (K := fun _ _ => True) (fun _ _ _ _ _ => trivial)
      (fun s e _ _ => OuchSession.inertWithoutLogin_iff E s e) trivial
      (Machine.along_of_forall fun _ _ => trivial),
    Machine.along_congr (I := fun _ => True) (K := fun _ _ => True) (fun _ _ _ _ _ => trivial)
      (fun s e _ _ => BoeSession.inertWithoutLogin_iff E s e) trivial
      (Machine.along_of_forall fun _ _ => trivial)⟩

/-- An OUCH cancel is queued after a disconnect, and a BOE order is accepted before any login. -/
theorem not_inert_runs :
    (¬ ∀ (W : Type) (E : Env W) (w : W) (es : List OuchSession.Event),
      Machine.Along (OuchSession.step E) (OuchSession.InertWithoutLogin E)
        (OuchSession.init E w) es) ∧
    ¬ ∀ (W : Type) (E : Env W) (w : W) (es : List BoeSession.Event),
      Machine.Along (BoeSession.step E) (BoeSession.InertWithoutLogin E)
        (BoeSession.init E w) es := by
  constructor
  · intro h
    have hlast := (Machine.along_append.mp (h Unit quietEnv () ((OuchSession.loggedIn ++
      [OuchSession.enterPacket 'a' 100, .disconnect]) ++ [OuchSession.cancelPacket 'a' 0]))).2.1
    have hqueue := (hlast (by decide +kernel)).pendingCancel
    revert hqueue
    decide +kernel
  · intro h
    have hbook := ((h Unit quietEnv () [BoeSession.newPacket 'a' [100, 0, 0, 0]]).1
      (by decide +kernel)).activeOrders
    have hkeys := congrArg AList.keys hbook
    revert hkeys
    decide +kernel

end Evtsim
