import Evtsim.Program
import Evtsim.Lib.Printf

/-!
# The status report (`bm status`)

`curr_status` of either session lists its active orders, as it meets them on a walk over the map, and
`display_status` puts the reports of the sessions one behind the other. Symbols and sides are bytes that
clients have sent, and any of them may be in a report: still nothing in it is ambiguous
(`status_eq_iff`).
-/

namespace Evtsim

open Wire Decimal Printf Session

/-- What a report says of an order. -/
structure Listing where
  orderID : UInt64
  symbol : Fin 8 → UInt8
  side : UInt8
  price : ℤ
  executedQty : ℤ
  remainingQty : ℤ

namespace Listing

def text (x : Listing) : List UInt8 :=
  bytes "[OrderID: " ++ (print x.orderID.toNat ++ (bytes "]\n" ++ (bytes "Symbol: " ++
    (List.ofFn x.symbol ++ (bytes "\n" ++ (bytes "Side: " ++ ([x.side] ++ (bytes " Price: " ++
      (printInt x.price ++ (bytes "\n" ++ (bytes "Executed qty: " ++ (printInt x.executedQty ++
        (bytes "\n" ++ (bytes "Remaining qty: " ++ (printInt x.remainingQty ++ bytes "\n")))))))))))))))

/-- A text that does not start with a listing. -/
def EndsListings (r : List UInt8) : Prop := ∃ c l, r = c :: l ∧ c ≠ 91

/-- A listing can be told from its text and whatever follows it. -/
theorem text_append_inj {a b : Listing} {x y : List UInt8} (h : a.text ++ x = b.text ++ y) :
    a = b ∧ x = y := by
  -- field by field: literals are the same, and a number ends where its line does
  simp only [text, List.append_assoc] at h
  have horder := List.append_cancel_left h
  have hid : a.orderID = b.orderID :=
    UInt64.toNat_inj.mp (print_append_inj (c := 93) (d := 93) (by decide) (by decide) horder)
  rw [hid] at horder
  have hsymbol := List.append_cancel_left (List.append_cancel_left (List.append_cancel_left horder))
  obtain ⟨hs, hside⟩ := List.append_inj hsymbol (by rw [List.length_ofFn, List.length_ofFn])
  obtain ⟨hside, hprice⟩ := List.append_inj
    (List.append_cancel_left (List.append_cancel_left hside)) rfl
  have hprice := List.append_cancel_left hprice
  have hp : a.price = b.price := printInt_append_inj (c := 10) (d := 10) (by decide) (by decide) hprice
  rw [hp] at hprice
  have hexecuted := List.append_cancel_left (List.append_cancel_left (List.append_cancel_left hprice))
  have he : a.executedQty = b.executedQty :=
    printInt_append_inj (c := 10) (d := 10) (by decide) (by decide) hexecuted
  rw [he] at hexecuted
  have hremaining :=
    List.append_cancel_left (List.append_cancel_left (List.append_cancel_left hexecuted))
  have hr : a.remainingQty = b.remainingQty :=
    printInt_append_inj (c := 10) (d := 10) (by decide) (by decide) hremaining
  rw [hr] at hremaining
  refine ⟨?_, List.append_cancel_left (List.append_cancel_left hremaining)⟩
  obtain ⟨ai, as, ac, ap, ae, ar⟩ := a
  obtain ⟨bi, bs, bc, bp, be, br⟩ := b
  obtain rfl : as = bs := List.ofFn_injective hs
  obtain rfl : ac = bc := List.singleton_inj.mp hside
  obtain rfl : ai = bi := hid
  obtain rfl : ap = bp := hp
  obtain rfl : ae = be := he
  obtain rfl : ar = br := hr
  rfl

/-- A listing starts with a bracket. -/
theorem text_head (x : Listing) : ∃ l, x.text = 91 :: l := ⟨_, rfl⟩

/-- So can listings, if what follows does not start like one. -/
theorem flatMap_text_append_inj {as bs : List Listing} {x y : List UInt8} (hx : EndsListings x)
    (hy : EndsListings y) (h : as.flatMap text ++ x = bs.flatMap text ++ y) : as = bs ∧ x = y := by
  have hnot : ∀ (a : Listing) (l z : List UInt8), EndsListings z → a.text ++ l ≠ z := by
    rintro a l z ⟨c, r, rfl, hc⟩ heq
    obtain ⟨l', hl'⟩ := a.text_head
    rw [hl'] at heq
    exact hc (List.cons.inj heq).1.symm
  induction as generalizing bs with
  | nil =>
    cases bs with
    | nil => exact ⟨rfl, h⟩
    | cons b bs =>
      rw [List.flatMap_cons, List.append_assoc] at h
      exact absurd h.symm (hnot b _ x hx)
  | cons a as ih =>
    cases bs with
    | nil =>
      rw [List.flatMap_cons, List.append_assoc] at h
      exact absurd h (hnot a _ y hy)
    | cons b bs =>
      rw [List.flatMap_cons, List.flatMap_cons, List.append_assoc, List.append_assoc] at h
      obtain ⟨rfl, hrest⟩ := text_append_inj h
      obtain ⟨rfl, hxy⟩ := ih hrest
      exact ⟨rfl, hxy⟩

end Listing

/-- The body that the two `curr_status` share, of a session with the name `title`. -/
def statusText (title : List UInt8) (listings : List Listing) : List UInt8 :=
  if listings.length = 0 then title ++ bytes "No active order"
  else title ++ (bytes "Active Order(s):\n" ++ listings.flatMap Listing.text)

/-- A report can be told from whatever follows it on a new line. -/
theorem statusText_append_inj {title : List UInt8} {as bs : List Listing} {x y : List UInt8}
    (h : statusText title as ++ 10 :: x = statusText title bs ++ 10 :: y) : as = bs ∧ x = y := by
  have hnewline : ∀ l, Listing.EndsListings (10 :: l) := fun l => ⟨10, l, rfl, by decide⟩
  unfold statusText at h
  split at h <;> split at h <;> simp only [List.append_assoc] at h
  case isTrue.isTrue ha hb =>
    rw [List.length_eq_zero_iff.mp ha, List.length_eq_zero_iff.mp hb]
    exact ⟨rfl, (List.cons.inj (List.append_cancel_left (List.append_cancel_left h))).2⟩
  case isTrue.isFalse =>
    exact absurd (List.cons.inj (List.append_cancel_left h)).1 (by decide)
  case isFalse.isTrue =>
    exact absurd (List.cons.inj (List.append_cancel_left h)).1 (by decide)
  case isFalse.isFalse =>
    obtain ⟨has, hxy⟩ := Listing.flatMap_text_append_inj (hnewline x) (hnewline y)
      (List.append_cancel_left (List.append_cancel_left h))
    exact ⟨has, (List.cons.inj hxy).2⟩

/-! ## The sessions -/

variable {D W : Type}

def OuchOrder.listing (o : OuchOrder) : Listing :=
  { orderID := o.orderID, symbol := o.symbol, side := o.side, price := o.price.toInt
    executedQty := o.executedQty, remainingQty := o.remainingQty }

def BoeOrder.listing (o : BoeOrder) : Listing :=
  { orderID := o.orderID, symbol := o.symbol, side := o.side, price := o.price.toNat
    executedQty := o.executedQty, remainingQty := o.remainingQty }

/-- The values of a map as a walk meets them. -/
def walked {ν : Type} (E : Env W) (A : KeyedMap Key ν) (w : W) : List ν :=
  (E.visit A.keys w).1.val.filterMap fun k => A.lookup k

/-- A walk meets every entry once. -/
theorem walked_perm {ν : Type} (E : Env W) (A : KeyedMap Key ν) (w : W) :
    (walked E A w).Perm (A.entries.map Sigma.snd) := by
  have hlookup : ∀ l : List (Σ _ : Key, ν), (∀ e ∈ l, e ∈ A.entries) →
      (l.map Sigma.fst).filterMap (fun k => A.lookup k) = l.map Sigma.snd := by
    intro l hl
    induction l with
    | nil => rfl
    | cons e l ih =>
      have he : A.lookup e.1 = some e.2 := AList.mem_lookup_iff.mpr (hl e List.mem_cons_self)
      rw [List.map_cons, List.filterMap_cons_some (f := fun k => A.lookup k) he, List.map_cons,
        ih fun e' he' => hl e' (List.mem_cons_of_mem e he')]
  refine ((E.visit A.keys w).1.property.filterMap fun k => A.lookup k).trans ?_
  show ((A.entries.map Sigma.fst).filterMap fun k => A.lookup k).Perm _
  rw [hlookup A.entries fun _ he => he]

/-- `curr_status` -/
def OuchSession.currStatus (E : Env W) (s : OuchSession W) : List UInt8 :=
  statusText (bytes "[OUCH]") ((walked E s.activeOrders s.env).map OuchOrder.listing)

/-- `curr_status` -/
def BoeSession.currStatus (E : Env W) (s : BoeSession W) : List UInt8 :=
  statusText (bytes "[BOE]") ((walked E s.activeOrders s.env).map BoeOrder.listing)

/-! ## The behaviour manager -/

/-- The functions that sessions have registered. -/
structure Registered (σ : Type) where
  displayStatusFuncs : List (σ → List UInt8)
  cancelFuncs : List (σ → σ × ℕ)

namespace Registered

variable {σ : Type} (r : Registered σ)

/-- `display_status` -/
def displayStatus (x : σ) : List UInt8 :=
  if r.displayStatusFuncs.length = 0 then bytes "No status function registered\n"
  else r.displayStatusFuncs.flatMap fun f => f x ++ bytes "\n"

/-- `cancel_all` -/
def cancelAll (x : σ) : σ × List UInt8 :=
  let start := if r.cancelFuncs.length = 0 then bytes "No status function registered\n" else []
  r.cancelFuncs.foldl (fun y f => ((f y.1).1,
    y.2 ++ (print (f y.1).2 ++ bytes " order(s) canceled" ++ bytes "\n"))) (x, start)

end Registered

namespace Program

variable (d : Double D) (E : Env W)

/-- What the constructors of the two sessions register. -/
def registered : Registered (Program D W) :=
  { displayStatusFuncs :=
      [fun x => OuchSession.currStatus (managed d E) x.ouchServer.market,
        fun x => BoeSession.currStatus (managed d E) x.boeServer.market]
    cancelFuncs :=
      [fun x =>
          let r := OuchSession.cancelAll (managed d E) x.ouchServer.market
          ({ x with env := r.1.env, ouch := { x.ouch with market := r.1 } }, r.2),
        fun x =>
          let r := BoeSession.cancelAll (managed d E) x.boeServer.market
          ({ x with env := r.1.env, boe := { x.boe with market := r.1 } }, r.2)] }

variable {d E}

/-- `bm cancel_all` is the handler of this name, and its response counts the orders. -/
theorem registered_cancelAll (x : Program D W) :
    (registered d E).cancelAll x = ((cancelAll d E x).1,
      print (cancelAll d E x).2.1 ++ bytes " order(s) canceled\n" ++
        (print (cancelAll d E x).2.2 ++ bytes " order(s) canceled\n")) := by
  have hline : bytes " order(s) canceled" ++ bytes "\n" = bytes " order(s) canceled\n" := by decide
  refine Prod.ext rfl ?_
  show ([] ++ (print (cancelAll d E x).2.1 ++ bytes " order(s) canceled" ++ bytes "\n")) ++
    (print (cancelAll d E x).2.2 ++ bytes " order(s) canceled" ++ bytes "\n") = _
  simp only [List.nil_append, List.append_assoc, hline]

/-- **Status.** The report of `bm status` says no more and no less than the listings of the active
orders of either session, each order once: two states are reported in the same way only if these are
the same. -/
theorem status_eq_iff (x y : Program D W) :
    let listed := fun x : Program D W =>
      ((walked (managed d E) x.ouch.market.activeOrders x.env).map OuchOrder.listing,
        (walked (managed d E) x.boe.market.activeOrders x.env).map BoeOrder.listing)
    ((registered d E).displayStatus x = (registered d E).displayStatus y ↔ listed x = listed y) ∧
      (listed x).1.Perm (x.ouch.market.activeOrders.entries.map fun e => e.2.listing) ∧
      (listed x).2.Perm (x.boe.market.activeOrders.entries.map fun e => e.2.listing) := by
  refine ⟨⟨fun h => ?_, fun h => ?_⟩, ?_, ?_⟩
  · have htext : ∀ z : Program D W, (registered d E).displayStatus z =
        OuchSession.currStatus (managed d E) z.ouchServer.market ++ 10 ::
          (BoeSession.currStatus (managed d E) z.boeServer.market ++ 10 :: []) := by
      intro z
      show (_ ++ bytes "\n") ++ ((_ ++ bytes "\n") ++ []) = _
      rw [List.append_assoc, List.append_nil]
      rfl
    rw [htext, htext] at h
    obtain ⟨houch, hboe⟩ := statusText_append_inj h
    exact Prod.ext houch (statusText_append_inj hboe).1
  · obtain ⟨houch, hboe⟩ := Prod.mk.inj h
    show (statusText _ _ ++ _) ++ ((statusText _ _ ++ _) ++ []) = _
    refine congrArg₂ (fun a b => (statusText (bytes "[OUCH]") a ++ bytes "\n") ++
      ((statusText (bytes "[BOE]") b ++ bytes "\n") ++ [])) houch hboe
  · have h := (walked_perm (managed d E) x.ouch.market.activeOrders x.env).map OuchOrder.listing
    rwa [List.map_map] at h
  · have h := (walked_perm (managed d E) x.boe.market.activeOrders x.env).map BoeOrder.listing
    rwa [List.map_map] at h

/-! ## `bm cancel_all` -/

/-- The status of two empty books. -/
theorem displayStatus_of_empty {x : Program D W} (houch : x.ouch.market.activeOrders = ∅)
    (hboe : x.boe.market.activeOrders = ∅) :
    (registered d E).displayStatus x = bytes "[OUCH]No active order\n[BOE]No active order\n" := by
  have howalk : walked (managed d E) x.ouch.market.activeOrders x.env = [] := by
    unfold walked
    rw [Env.visit_empty _ (by rw [houch]; rfl)]
    rfl
  have hbwalk : walked (managed d E) x.boe.market.activeOrders x.env = [] := by
    unfold walked
    rw [Env.visit_empty _ (by rw [hboe]; rfl)]
    rfl
  show (statusText (bytes "[OUCH]") ((walked (managed d E) x.ouch.market.activeOrders x.env).map _) ++
    bytes "\n") ++ ((statusText (bytes "[BOE]")
      ((walked (managed d E) x.boe.market.activeOrders x.env).map _) ++ bytes "\n") ++ []) = _
  rw [howalk, hbwalk]
  decide

/-- **Cancelling everything.** The response of `bm cancel_all` counts, for either session, the messages
that wait for its client behind those that waited before; each is a cancellation. After it no order is
active, so that a report lists none and a second `bm cancel_all` cancels none. -/
theorem cancelAll_response (x : Program D W) :
    let r := (registered d E).cancelAll x
    ∃ as bs, r.2 = print as.length ++ bytes " order(s) canceled\n" ++
        (print bs.length ++ bytes " order(s) canceled\n") ∧
      r.1.ouch.market.pendingOutMessages = x.ouch.market.pendingOutMessages ++ as ∧
      r.1.boe.market.pendingOutMessages = x.boe.market.pendingOutMessages ++ bs ∧
      (∀ m ∈ as, m.kind = .orderCanceled) ∧ (∀ m ∈ bs, m.type = .orderCanceled) ∧
      (registered d E).displayStatus r.1 = bytes "[OUCH]No active order\n[BOE]No active order\n" ∧
      ((registered d E).cancelAll r.1).2 = bytes "0 order(s) canceled\n0 order(s) canceled\n" := by
  obtain ⟨as, has, hacount, hakinds⟩ := OuchSession.cancelAll_out (managed d E) x.ouchServer.market
  obtain ⟨bs, hbs, hbcount, hbtypes⟩ := BoeSession.cancelAll_out (managed d E)
    (x.boe.market.inEnv (OuchSession.cancelAll (managed d E) x.ouchServer.market).1.env)
  simp only [registered_cancelAll]
  refine ⟨as, bs, ?_, has, hbs, hakinds, hbtypes, displayStatus_of_empty rfl rfl, ?_⟩
  · rw [← hacount, ← hbcount]
    rfl
  · have houch : (cancelAll d E (cancelAll d E x).1).2.1 = 0 := Session.cancelAll_of_empty _ rfl
    have hboe : (cancelAll d E (cancelAll d E x).1).2.2 = 0 := Session.cancelAll_of_empty _ rfl
    rw [houch, hboe]
    decide

end Program

end Evtsim
