import Evtsim.Ouch.Messages
import Evtsim.Lib.Printf

/-!
# The log text of OUCH packets (`evtsim_util.cpp`)

`outbound_to_string` and `inbound_to_string` format a packet into a local buffer and return as much of
the buffer as `snprintf` says. Packets without a format are named by a `strcpy`, which leaves the length
at the size of the buffer, and two formats print a token in place, without a NUL of its own.
`ownText_iff` says for which packets the string is the formatted text and nothing more.
-/

namespace Evtsim

open Wire Printf

namespace Ouch

namespace LogText

/-! ## The formats -/

/-- The conversions of `big_to_native` values. -/
abbrev hu : Conv := .unsigned 2 .big
abbrev u : Conv := .unsigned 4 .big
abbrev lu : Conv := .unsigned 8 .big
abbrev d : Conv := .signed 4 .big
abbrev c : Conv := .char 0

/-- `Token::_str_` -/
abbrev token : Conv := .string 14

/-- The header of a packet. -/
def packet (title : String) : List Piece := [⟨title, hu, 0⟩, ⟨",packet_type=", c, 2⟩]

/-- The header of a message. -/
def message (title : String) : List Piece := packet title ++ [⟨",msg_type=", c, 3⟩]

/-- The header of a message to the client, with its time. -/
def timed (title : String) : List Piece := message title ++ [⟨",timestamp=", lu, 4⟩]

/-- The header of a message about an order. -/
def ofOrder (title : String) : List Piece := timed title ++ [⟨",clordid=", token, 12⟩]

def loginRequest : Format :=
  { pieces := packet "LoginRequest(length=" ++ [⟨",username=", .string 6, 3⟩,
      ⟨",password=", .string 10, 9⟩, ⟨",requested_session=", .string 10, 19⟩,
      ⟨",requested_seq_num=", .string 20, 29⟩]
    close := ")" }

def clientHeartbeat : Format := { pieces := packet "ClientHeartbeat(length=", close := ")" }

def enterOrder : Format :=
  { pieces := message "EnterOrder(length=" ++ [⟨",clordid=", token, 4⟩, ⟨",side=", c, 18⟩,
      ⟨",qty=", u, 19⟩, ⟨",symbol=", .string 8, 23⟩, ⟨",price=", d, 31⟩, ⟨",time_in_force=", u, 35⟩,
      ⟨",firm=", .string 4, 39⟩, ⟨",display=", c, 43⟩, ⟨",capacity=", c, 44⟩,
      ⟨",intermarket_sweep_eligibility=", c, 45⟩, ⟨",min_qty=", u, 46⟩, ⟨",cross_type=", c, 50⟩,
      ⟨",customer_type=", c, 51⟩]
    close := ")" }

def cancelOrder : Format :=
  { pieces := message "CancelOrder(length=" ++ [⟨",clordid=", token, 4⟩, ⟨",qty=", u, 18⟩]
    close := ")" }

def modifyOrder : Format :=
  { pieces := message "ModifyOrder(length=" ++ [⟨",clordid=", token, 4⟩, ⟨",side=", c, 18⟩,
      ⟨",qty=", u, 19⟩]
    close := ")" }

/-- The first token is printed in place, and `min_qty` as the host reads it. -/
def replaceOrder : Format :=
  { pieces := message "ReplaceOrder(length=" ++ [⟨",existing_clordid=", .openString, 4⟩,
      ⟨",clordid=", token, 18⟩, ⟨",qty=", u, 32⟩, ⟨",price=", d, 36⟩, ⟨",time_in_force=", u, 40⟩,
      ⟨",display=", c, 44⟩, ⟨",intermarket_sweep_eligibility=", c, 45⟩,
      ⟨",min_qty=", .unsigned 4 .host, 46⟩]
    close := ")" }

def loginAccepted : Format :=
  { pieces := packet "LoginAccepted(length=" ++ [⟨",session=", .string 10, 3⟩,
      ⟨",seq_num=", .string 20, 13⟩]
    close := ")" }

def loginRejected : Format :=
  { pieces := packet "LoginRejected(length=" ++ [⟨",reason=", c, 3⟩], close := ")" }

/-- What `OrderAccepted` and `OrderReplaced` show alike. -/
def orderState (title : String) : List Piece :=
  ofOrder title ++ [⟨",side=", c, 26⟩, ⟨",qty=", u, 27⟩, ⟨",symbol=", .string 8, 31⟩,
    ⟨",price=", d, 39⟩, ⟨",time_in_force=", u, 43⟩, ⟨",firm=", .string 4, 47⟩, ⟨",display=", c, 51⟩,
    ⟨",order_reference_number=", lu, 52⟩, ⟨",capacity=", c, 60⟩,
    ⟨",intermarket_sweep_eligibility=", c, 61⟩, ⟨",min_qty=", u, 62⟩, ⟨",cross_type=", c, 66⟩,
    ⟨",order_state=", c, 67⟩]

def orderAccepted : Format :=
  { pieces := orderState "OrderAccepted(length=" ++ [⟨",bbo_weight_indicator=", c, 68⟩], close := ")" }

def orderRejected : Format :=
  { pieces := ofOrder "OrderRejected(length=" ++ [⟨",reason=", c, 26⟩], close := ")" }

def serverHeartbeat : Format := { pieces := packet "ServertHeartbeat(length=", close := ")" }

def endOfSession : Format := { pieces := packet "EndOfSession(length=", close := ")" }

def aiqCanceled : Format :=
  { pieces := ofOrder "AiqCanceled(length=" ++ [⟨",decrement_qty=", u, 26⟩, ⟨",reason=", c, 30⟩,
      ⟨",qty_prevented_from_trading=", u, 31⟩, ⟨",execution_price=", u, 35⟩, ⟨",liquidity_flag=", c, 39⟩]
    close := ")" }

def cancelReject : Format := { pieces := ofOrder "CancelReject(length=", close := ")" }

/-- What the reports of a trade show alike. -/
def trade (title shares : String) : List Piece :=
  ofOrder title ++ [⟨shares, u, 26⟩, ⟨",execution_price=", d, 30⟩, ⟨",liquidity_flag=", c, 34⟩,
    ⟨",match_number=", lu, 35⟩]

def executed : Format := { pieces := trade "Executed(length=" ",executed_qty=", close := ")" }

def executedWithRefPrice : Format :=
  { pieces := trade "ExecutedWithRefPrice(length=" ",executed_qty=" ++ [⟨",reference_price=", u, 43⟩,
      ⟨",reference_price_type=", c, 47⟩]
    close := ")" }

def orderCanceled : Format :=
  { pieces := ofOrder "OrderCanceled(length=" ++ [⟨",decrement_qty=", u, 26⟩, ⟨",reason=", c, 30⟩]
    close := ")" }

def orderModified : Format :=
  { pieces := ofOrder "OrderModified(length=" ++ [⟨",side=", c, 26⟩, ⟨",shares=", u, 27⟩]
    close := ")" }

/-- The previous token is printed in place. -/
def orderReplaced : Format :=
  { pieces := orderState "OrderModified(length=" ++ [⟨",orig_clordid=", .openString, 68⟩,
      ⟨",bbo_weight_indicator=", c, 82⟩]
    close := ")" }

def systemEvent : Format :=
  { pieces := timed "SystemEvent(length=" ++ [⟨",event_code=", c, 12⟩], close := ")" }

def brokenTrade : Format :=
  { pieces := ofOrder "BrokenTrade(length=" ++ [⟨",match_number=", lu, 26⟩, ⟨",reason=", c, 34⟩]
    close := ")" }

def cancelPending : Format := { pieces := ofOrder "BrokenTrade(length=", close := ")" }

def priorityUpdate : Format := { pieces := ofOrder "PriorityUpdate(length=", close := ")" }

def tradeCorrection : Format :=
  { pieces := trade "TradeCorrection(length=" ",executed_shares=" ++ [⟨",reason=", c, 43⟩]
    close := ")" }

def tradeNow : Format := { pieces := ofOrder "TradeNow(length=", close := ")" }

/-! ## The switches -/

/-- A branch of a switch: a format, or a text that is copied into the buffer. -/
inductive Branch
  | snprintf (f : Format)
  | strcpy (text : String)

/-- The two switches of a function: on the packet type and, for one of them, on the message type. -/
structure Switches where
  /-- the type of the packets that carry a message -/
  data : UInt8
  packets : List (UInt8 × Branch)
  messages : List (UInt8 × Branch)
  /-- the text for an unknown message type -/
  unknown : String

def outbound : Switches where
  data := 'U'.toUInt8
  packets := [('L'.toUInt8, .snprintf loginRequest), ('R'.toUInt8, .snprintf clientHeartbeat),
    ('+'.toUInt8, .strcpy "Debug..."), ('O'.toUInt8, .strcpy "LogoutRequest...")]
  messages := [('O'.toUInt8, .snprintf enterOrder), ('X'.toUInt8, .snprintf cancelOrder),
    ('M'.toUInt8, .snprintf modifyOrder), ('U'.toUInt8, .snprintf replaceOrder)]
  unknown := "<unknown OutboundMsgType>"

def inbound : Switches where
  data := 'S'.toUInt8
  packets := [('A'.toUInt8, .snprintf loginAccepted), ('H'.toUInt8, .snprintf serverHeartbeat),
    ('+'.toUInt8, .strcpy "+++ Debug..."), ('Z'.toUInt8, .snprintf endOfSession),
    ('J'.toUInt8, .snprintf loginRejected)]
  messages := [('A'.toUInt8, .snprintf orderAccepted), ('J'.toUInt8, .snprintf orderRejected),
    ('D'.toUInt8, .snprintf aiqCanceled), ('I'.toUInt8, .snprintf cancelReject),
    ('E'.toUInt8, .snprintf executed), ('G'.toUInt8, .snprintf executedWithRefPrice),
    ('C'.toUInt8, .snprintf orderCanceled), ('M'.toUInt8, .snprintf orderModified),
    ('U'.toUInt8, .snprintf orderReplaced), ('S'.toUInt8, .snprintf systemEvent),
    ('B'.toUInt8, .snprintf brokenTrade), ('P'.toUInt8, .snprintf cancelPending),
    ('T'.toUInt8, .snprintf priorityUpdate), ('F'.toUInt8, .snprintf tradeCorrection),
    ('N'.toUInt8, .snprintf tradeNow)]
  unknown := "<unknown InboundMsgType>"

/-- The branch that a packet takes. -/
def Switches.branch (sw : Switches) (hdr : Mem) : Branch :=
  if hdr 2 = sw.data then (sw.messages.lookup (hdr 3)).getD (.strcpy sw.unknown)
  else (sw.packets.lookup (hdr 2)).getD (.strcpy "<unknown PacketType>")

/-- `sizeof(buf)` -/
def sizeofBuf : ℕ := 4096

/-- What a branch makes of the buffer, and `ret_len`. -/
def Branch.fill (buf hdr : Mem) : Branch → Mem × ℕ
  | snprintf f => Printf.snprintf buf 0 sizeofBuf (f.text hdr)
  | strcpy text => (put buf 0 (bytes text ++ [0]), sizeofBuf)

/-- The text that a branch is to give. -/
def Branch.text (hdr : Mem) : Branch → List UInt8
  | snprintf f => f.text hdr
  | strcpy text => bytes text

/-- The string that is returned, whatever the buffer holds at first. -/
def Switches.toString (sw : Switches) (buf hdr : Mem) : List UInt8 :=
  let filled := (sw.branch hdr).fill buf hdr
  Printf.toString filled.1 filled.2

/-- The text formatted for a packet. -/
def Switches.text (sw : Switches) (hdr : Mem) : List UInt8 := (sw.branch hdr).text hdr

end LogText

open LogText

/-- `outbound_to_string` -/
def outboundToString (buf hdr : Mem) : List UInt8 := outbound.toString buf hdr

/-- `inbound_to_string` -/
def inboundToString (buf hdr : Mem) : List UInt8 := inbound.toString buf hdr

namespace LogText

/-! ## Inside the buffer -/

/-- A text that is copied fits the buffer with its NUL. -/
def Branch.Short : Branch → Prop
  | snprintf _ => True
  | strcpy text => (bytes text).length < sizeofBuf

instance : DecidablePred Branch.Short
  | .snprintf _ => isTrue trivial
  | .strcpy text => inferInstanceAs (Decidable ((bytes text).length < sizeofBuf))

/-- A short branch leaves alone what stands behind the buffer. -/
theorem Branch.Short.fill_of_le {br : Branch} (h : br.Short) (buf hdr : Mem) {i : ℕ} (hi : sizeofBuf ≤ i) :
    (br.fill buf hdr).1 i = buf i := by
  cases br with
  | snprintf f => exact snprintf_of_le (by omega) buf _
  | strcpy text =>
    have htext : (bytes text).length < sizeofBuf := h
    show put buf 0 (bytes text ++ [0]) i = buf i
    refine put_of_le ?_ buf
    rw [List.length_append, List.length_singleton]
    omega

/-- The branch that a `switch` takes is short if all of them are. -/
theorem short_lookup {cases : List (UInt8 × Branch)} (h : ∀ e ∈ cases, e.2.Short) {other : String}
    (hother : (bytes other).length < sizeofBuf) (b : UInt8) :
    ((cases.lookup b).getD (.strcpy other)).Short := by
  rcases hlook : cases.lookup b with _ | br
  · exact hother
  · obtain ⟨l, l', rfl, -⟩ := List.lookup_eq_some_iff.mp hlook
    exact h (b, br) (List.mem_append_right _ List.mem_cons_self)

/-- Whatever the packet, `outbound_to_string` writes to its buffer only. -/
theorem outbound_fill_of_le (buf hdr : Mem) {i : ℕ} (hi : sizeofBuf ≤ i) :
    ((outbound.branch hdr).fill buf hdr).1 i = buf i := by
  refine Branch.Short.fill_of_le ?_ buf hdr hi
  unfold Switches.branch
  split
  · exact short_lookup (by decide +kernel) (by decide +kernel) _
  · exact short_lookup (by decide +kernel) (by decide +kernel) _

/-- So does `inbound_to_string`. -/
theorem inbound_fill_of_le (buf hdr : Mem) {i : ℕ} (hi : sizeofBuf ≤ i) :
    ((inbound.branch hdr).fill buf hdr).1 i = buf i := by
  refine Branch.Short.fill_of_le ?_ buf hdr hi
  unfold Switches.branch
  split
  · exact short_lookup (by decide +kernel) (by decide +kernel) _
  · exact short_lookup (by decide +kernel) (by decide +kernel) _

/-! ## The text of the packet alone -/

/-- The string returned for the packet `bs` is the text formatted for it, and fits the buffer. Neither
what the buffer holds nor what follows the packet shows in it. -/
def OwnText (toString : Mem → Mem → List UInt8) (text : Mem → List UInt8) (bs : List UInt8) : Prop :=
  ∃ t : List UInt8, t.length < sizeofBuf ∧
    ∀ buf behind, toString buf (Mem.write bs behind) = t ∧ text (Mem.write bs behind) = t

/-- The formats that print a token in place. -/
def InPlace (f : Format) : Prop := f = replaceOrder ∨ f = orderReplaced

/-- The packet has a format, all that the format shows lies in the packet, and a text with a token in place
fits the buffer. -/
def HasText (sw : Switches) (bs : List UInt8) : Prop :=
  ∃ f, sw.branch (followedBy bs 0) = .snprintf f ∧ f.Contained bs ∧
    (InPlace f → f.width (followedBy bs 0) < sizeofBuf)

/-- A format that may come to more than the buffer holds. -/
def MayExceed (f : Format) : Prop := sizeofBuf ≤ f.maxWidth 0

instance (f : Format) : Decidable (MayExceed f) := inferInstanceAs (Decidable (_ ≤ _))

/-- A format shows the packet only, and every number in it is told from what follows. -/
def Branch.WellFormed : Branch → Prop
  | snprintf f => f.Delimited ∧ f.GivenLe 0
  | strcpy _ => True

instance : DecidablePred Branch.WellFormed
  | .snprintf f => inferInstanceAs (Decidable (f.Delimited ∧ f.GivenLe 0))
  | .strcpy _ => isTrue trivial

/-- No type is NUL, and every branch is well-formed. -/
structure Switches.WellFormed (sw : Switches) : Prop where
  data : sw.data ≠ 0
  packets : ∀ e ∈ sw.packets, e.1 ≠ 0 ∧ e.2.WellFormed
  messages : ∀ e ∈ sw.messages, e.1 ≠ 0 ∧ e.2.WellFormed

/-- The formats of the member's packets are well formed. -/
theorem outbound_wellFormed : outbound.WellFormed :=
  ⟨by decide, by decide +kernel, by decide +kernel⟩

/-- The formats of the exchange's packets are well formed. -/
theorem inbound_wellFormed : inbound.WellFormed :=
  ⟨by decide, by decide +kernel, by decide +kernel⟩

section

variable {sw : Switches} {bs : List UInt8} {f : Format}

/-- A branch with a format belongs to a packet type, or to a message type of a data packet. -/
theorem mem_of_branch {hdr : Mem} (h : sw.branch hdr = .snprintf f) :
    hdr 2 ≠ sw.data ∧ (hdr 2, .snprintf f) ∈ sw.packets ∨
      hdr 2 = sw.data ∧ (hdr 3, .snprintf f) ∈ sw.messages := by
  have hmem : ∀ {cases : List (UInt8 × Branch)} {b : UInt8} {other : String},
      (cases.lookup b).getD (.strcpy other) = .snprintf f → (b, .snprintf f) ∈ cases := by
    intro cases b other h
    rcases hlook : cases.lookup b with _ | br
    · rw [hlook] at h
      cases h
    · rw [hlook, Option.getD_some] at h
      obtain ⟨l, l', rfl, -⟩ := List.lookup_eq_some_iff.mp hlook
      rw [h]
      exact List.mem_append_right _ List.mem_cons_self
  unfold Switches.branch at h
  split at h
  · exact .inr ⟨‹_›, hmem h⟩
  · exact .inl ⟨‹_›, hmem h⟩

/-- Only a token in place may make a text exceed the buffer. -/
theorem inPlace_of_mayExceed_outbound {hdr : Mem} (h : outbound.branch hdr = .snprintf f)
    (hf : MayExceed f) : InPlace f := by
  rcases mem_of_branch h with ⟨-, hmem⟩ | ⟨-, hmem⟩
  all_goals
    simp only [outbound, List.mem_cons, Prod.mk.injEq, Branch.snprintf.injEq, reduceCtorEq,
      List.not_mem_nil, and_false, or_false] at hmem
  · rcases hmem with ⟨-, rfl⟩ | ⟨-, rfl⟩
    all_goals exact absurd hf (by decide +kernel)
  · rcases hmem with ⟨-, rfl⟩ | ⟨-, rfl⟩ | ⟨-, rfl⟩ | ⟨-, rfl⟩
    case inr.inr.inr => exact .inl rfl
    all_goals exact absurd hf (by decide +kernel)

/-- The exchange's formats that may exceed the buffer show fields of the packet only. -/
theorem inPlace_of_mayExceed_inbound {hdr : Mem} (h : inbound.branch hdr = .snprintf f)
    (hf : MayExceed f) : InPlace f := by
  rcases mem_of_branch h with ⟨-, hmem⟩ | ⟨-, hmem⟩
  all_goals
    simp only [inbound, List.mem_cons, Prod.mk.injEq, Branch.snprintf.injEq, reduceCtorEq,
      List.not_mem_nil, and_false, or_false, false_or] at hmem
  · rcases hmem with ⟨-, rfl⟩ | ⟨-, rfl⟩ | ⟨-, rfl⟩ | ⟨-, rfl⟩
    all_goals exact absurd hf (by decide +kernel)
  · rcases hmem with ⟨-, rfl⟩ | ⟨-, rfl⟩ | ⟨-, rfl⟩ | ⟨-, rfl⟩ | ⟨-, rfl⟩ | ⟨-, rfl⟩ | ⟨-, rfl⟩ |
      ⟨-, rfl⟩ | ⟨-, rfl⟩ | ⟨-, rfl⟩ | ⟨-, rfl⟩ | ⟨-, rfl⟩ | ⟨-, rfl⟩ | ⟨-, rfl⟩ | ⟨-, rfl⟩
    all_goals first | exact .inr rfl | exact absurd hf (by decide +kernel)

/-- The format of a branch that is taken is delimited. -/
theorem Switches.WellFormed.format (hsw : sw.WellFormed) {hdr : Mem}
    (h : sw.branch hdr = .snprintf f) : f.Delimited ∧ f.GivenLe 0 := by
  rcases mem_of_branch h with ⟨-, hmem⟩ | ⟨-, hmem⟩
  · exact (hsw.packets _ hmem).2
  · exact (hsw.messages _ hmem).2

/-- A packet with a format has its types in it, so that it has the format whatever follows. -/
theorem branch_write (hsw : sw.WellFormed) (h : sw.branch (followedBy bs 0) = .snprintf f) (behind : Mem) :
    sw.branch (Mem.write bs behind) = .snprintf f := by
  have hlt : ∀ {i}, followedBy bs 0 i ≠ 0 → i < bs.length := by
    intro i hne
    by_contra hle
    exact hne (followedBy_of_le (Nat.not_lt.mp hle) 0)
  rcases mem_of_branch h with ⟨hdata, hmem⟩ | ⟨hdata, hmem⟩
  · have h2 := hlt (hsw.packets _ hmem).1
    unfold Switches.branch at h ⊢
    rw [if_neg hdata] at h
    rw [write_congr h2 behind fun _ => 0]
    rw [← followedBy, if_neg hdata]
    exact h
  · have h2 : 2 < bs.length := hlt (hdata ▸ hsw.data)
    have h3 := hlt (hsw.messages _ hmem).1
    unfold Switches.branch at h ⊢
    rw [if_pos hdata] at h
    rw [write_congr h2 behind fun _ => 0, write_congr h3 behind fun _ => 0]
    rw [← followedBy, if_pos hdata]
    exact h

/-- A text that fits is returned as the format prints it. -/
theorem toString_of_branch {hdr : Mem} (h : sw.branch hdr = .snprintf f)
    (hfits : (f.text hdr).length < sizeofBuf) (buf : Mem) : sw.toString buf hdr = f.text hdr := by
  unfold Switches.toString
  rw [h]
  exact toString_snprintf hfits buf

/-- The text meant is that of the format. -/
theorem text_of_branch {hdr : Mem} (h : sw.branch hdr = .snprintf f) : sw.text hdr = f.text hdr := by
  unfold Switches.text
  rw [h]
  rfl

/-- A packet is logged with its own text exactly if its branch prints one that fits. -/
theorem ownText_iff (hsw : sw.WellFormed)
    (hplace : ∀ {hdr f}, sw.branch hdr = .snprintf f → MayExceed f → InPlace f) (bs : List UInt8) :
    OwnText sw.toString sw.text bs ↔ HasText sw bs := by
  constructor
  · rintro ⟨t, hlen, hall⟩
    rcases hbranch : sw.branch (followedBy bs 0) with f | text
    · have hsame : ∀ behind, f.text (Mem.write bs behind) = t := fun behind =>
        (text_of_branch (branch_write hsw hbranch behind)).symm.trans (hall behind behind).2
      refine ⟨f, hbranch, ?_, fun _ => ?_⟩
      · exact (f.contained_iff_text_eq (hsw.format hbranch).1).mpr fun m m' =>
          (hsame m).trans (hsame m').symm
      · rw [← f.length_text, followedBy, hsame]
        exact hlen
    · -- a text that is copied leaves the length at the size of the buffer
      have hstring := (hall (fun _ => 0) fun _ => 0).1
      have hlong := congrArg List.length hstring
      unfold Switches.toString at hlong
      rw [← followedBy, hbranch] at hlong
      simp only [Branch.fill, length_toString] at hlong
      omega
  · rintro ⟨f, hbranch, hin, hfits⟩
    have hbranches := branch_write hsw hbranch
    have hsame : ∀ behind, f.text (Mem.write bs behind) = f.text (followedBy bs 0) := fun behind =>
      (f.contained_iff_text_eq (hsw.format hbranch).1).mp hin behind _
    have hlen : (f.text (followedBy bs 0)).length < sizeofBuf := by
      rw [f.length_text]
      by_cases hexceed : MayExceed f
      · exact hfits (hplace hbranch hexceed)
      · exact (f.width_le (hsw.format hbranch).2 _).trans_lt (Nat.not_le.mp hexceed)
    refine ⟨f.text (followedBy bs 0), hlen, fun buf behind => ⟨?_, ?_⟩⟩
    · rw [toString_of_branch (hbranches behind) (by rw [hsame]; exact hlen), hsame]
    · rw [text_of_branch (hbranches behind), hsame]

end

/-- **Log text.** The string that either function returns for a packet is the text formatted for the
packet and nothing more exactly if the packet has a format, all that it shows lies in the packet and it
does not exceed the buffer. -/
theorem ownText_toString_iff (bs : List UInt8) :
    (OwnText outboundToString outbound.text bs ↔ HasText outbound bs) ∧
      (OwnText inboundToString inbound.text bs ↔ HasText inbound bs) :=
  ⟨ownText_iff outbound_wellFormed inPlace_of_mayExceed_outbound bs,
    ownText_iff inbound_wellFormed inPlace_of_mayExceed_inbound bs⟩

/-- A logout request comes out as 4096 bytes of the buffer. -/
theorem not_ownText_logoutRequest :
    ¬ ∀ bs, OwnText outboundToString outbound.text bs ∧ OwnText inboundToString inbound.text bs := by
  intro h
  obtain ⟨t, hlen, hall⟩ := (h [0, 1, 'O'.toUInt8]).1
  have hlong := congrArg List.length (hall (fun _ => 0) fun _ => 0).1
  have hbuf : (outboundToString (fun _ => 0) (Mem.write [0, 1, 'O'.toUInt8] fun _ => 0)).length = 4096 := by
    decide +kernel
  rw [hbuf] at hlong
  exact absurd hlen (by rw [← hlong]; decide)

end LogText

end Ouch

end Evtsim
