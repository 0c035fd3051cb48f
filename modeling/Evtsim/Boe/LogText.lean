import Evtsim.Boe.Messages
import Evtsim.Lib.Machine
import Evtsim.Lib.Printf

/-!
# The log text of BOE messages (`evtsim_util.cpp`)

`boe::to_string` writes the header of a message into a local buffer and the rest behind it, each
`snprintf` limited to the bytes that are left. `snprintf` returns the length of all of the text, whether it
fits or not. `inBuffer_iff` says for which messages everything stays in the buffer: for all but the
`LoginResponse`, whose loop over the units adds up these lengths.
-/

namespace Evtsim

open Wire Printf Machine

namespace Boe

namespace LogText

/-! ## The formats -/

/-- The conversions of the host's numbers. -/
abbrev hhu : Conv := .unsigned 1 .host
abbrev hu : Conv := .unsigned 2 .host
abbrev u : Conv := .unsigned 4 .host
abbrev lu : Conv := .unsigned 8 .host
abbrev x : Conv := .hex true
abbrev c : Conv := .char 0

/-- `%c` with a `0` for NUL. -/
abbrev orZero : Conv := .char '0'.toUInt8

/-- `Token::_str_` -/
abbrev token : Conv := .string 20

/-- `to_string(MsgType)`, by code. -/
def msgTypeNames : List (UInt8 × String) :=
  [(0x39, "CancelOrder"), (0x2b, "CancelRejected"), (0x03, "ClientHeartbeat"), (0x37, "LoginRequest"),
    (0x24, "LoginResponse"), (0x02, "LogoutRequest"), (0x08, "LogoutResponse"), (0x3a, "ModifyOrder"),
    (0x29, "ModifyRejected"), (0x38, "NewOrder"), (0x25, "OrderAck"), (0x2a, "OrderCanceled"),
    (0x2c, "OrderExecution"), (0x27, "OrderModified"), (0x26, "OrderRejected"), (0x28, "OrderRestated"),
    (0x13, "ReplayComplete"), (0x09, "ServerHeartbeat"), (0x2d, "TradeCancelOrCorrect")]

/-- `to_string(MsgType)` -/
def msgTypeName (type : UInt8) : String := (msgTypeNames.lookup type).getD "<unknown>"

def header (type : UInt8) : Format :=
  { pieces := [⟨"", .given (bytes (msgTypeName type)), 0⟩, ⟨"(length=", hu, 2⟩, ⟨",type=0x", x, 4⟩,
      ⟨",matching_unit=", hhu, 5⟩, ⟨",seq_num=", u, 6⟩]
    close := "" }

def loginRequest : Format :=
  { pieces := [⟨",session_sub_id=", .string 4, 10⟩, ⟨",username=", .string 4, 14⟩,
      ⟨",password=", .string 10, 18⟩, ⟨",number_of_param_groups=", hhu, 28⟩,
      ⟨",order_ack.length=", hu, 34⟩, ⟨",order_ack.type=0x", x, 36⟩, ⟨",order_ack.msg_type=0x", x, 37⟩,
      ⟨",order_ack.num_bitfields=", hhu, 38⟩, ⟨",order_ack_bitfield1=", hhu, 39⟩,
      ⟨",order_ack_bitfield2=", hhu, 40⟩, ⟨",order_ack_bitfield3=", hhu, 41⟩,
      ⟨",order_ack_bitfield4=", hhu, 42⟩, ⟨",order_ack_bitfield5=", hhu, 43⟩,
      ⟨",order_modified.length=", hu, 44⟩, ⟨",order_modified.type=0x", x, 46⟩,
      ⟨",order_modified.msg_type=0x", x, 47⟩, ⟨",order_modified.num_bitfields=", hhu, 48⟩,
      ⟨",order_modified_bitfield1=", hhu, 49⟩, ⟨",order_modified_bitfield2=", hhu, 50⟩,
      ⟨",order_modified_bitfield3=", hhu, 51⟩, ⟨",order_modified_bitfield4=", hhu, 52⟩,
      ⟨",order_modified_bitfield5=", hhu, 53⟩, ⟨",order_restated.length=", hu, 54⟩,
      ⟨",order_restated.type=0x", x, 56⟩, ⟨",order_restated.msg_type=0x", x, 57⟩,
      ⟨",order_restated.num_bitfields=", hhu, 58⟩, ⟨",order_restated_bitfield1=", hhu, 59⟩,
      ⟨",order_restated_bitfield2=", hhu, 60⟩, ⟨",order_restated_bitfield3=", hhu, 61⟩,
      ⟨",order_restated_bitfield4=", hhu, 62⟩, ⟨",order_restated_bitfield5=", hhu, 63⟩,
      ⟨",order_canceled.length=", hu, 64⟩, ⟨",order_canceled.type=0x", x, 66⟩,
      ⟨",order_canceled.msg_type=0x", x, 67⟩, ⟨",order_canceled.num_bitfields=", hhu, 68⟩,
      ⟨",order_canceled_bitfield1=", hhu, 69⟩, ⟨",order_canceled_bitfield2=", hhu, 70⟩,
      ⟨",order_canceled_bitfield3=", hhu, 71⟩, ⟨",order_canceled_bitfield4=", hhu, 72⟩,
      ⟨",order_canceled_bitfield5=", hhu, 73⟩]
    close := ")" }

def newOrder : Format :=
  { pieces := [⟨",clordid=", token, 10⟩, ⟨",side=", c, 30⟩, ⟨",qty=", u, 31⟩, ⟨",num_bitfields=", hhu, 35⟩,
      ⟨",bitfield1=", hhu, 36⟩, ⟨",bitfield2=", hhu, 37⟩, ⟨",bitfield3=", hhu, 38⟩,
      ⟨",bitfield4=", hhu, 39⟩, ⟨",bitfield5=", hhu, 40⟩, ⟨",bitfield6=", hhu, 41⟩,
      ⟨",clearing_firm=", .string 4, 42⟩, ⟨",clearing_acct=", .string 4, 46⟩, ⟨",price=", lu, 50⟩,
      ⟨",exec_inst=", orZero, 58⟩, ⟨",order_type=", c, 59⟩, ⟨",time_in_force=", c, 60⟩,
      ⟨",min_qty=", u, 61⟩, ⟨",max_floor=", u, 65⟩, ⟨",symbol=", .string 8, 69⟩, ⟨",capacity=", c, 77⟩,
      ⟨",routing_inst=", .string 4, 78⟩, ⟨",acct=", .string 16, 82⟩, ⟨",display_indicator=", c, 98⟩,
      ⟨",max_remove_pct=", hhu, 99⟩, ⟨",discretion_amt=", hu, 100⟩,
      ⟨",peg_difference=", .signed 8 .host, 102⟩, ⟨",attributed_quote=", c, 110⟩,
      ⟨",ext_exec_inst=", orZero, 111⟩]
    close := ")" }

def cancelOrder : Format :=
  { pieces := [⟨",orig_clordid=", token, 10⟩, ⟨",num_bitfields=", hhu, 30⟩, ⟨",bitfield1=", hhu, 31⟩,
      ⟨",clearing_firm=", .string 4, 32⟩]
    close := ")" }

def modifyOrder : Format :=
  { pieces := [⟨",clordid=", token, 10⟩, ⟨",orig_clordid=", token, 30⟩, ⟨",num_bitfields=", hhu, 50⟩,
      ⟨",bitfield1=", hhu, 51⟩, ⟨",bitfield2=", hhu, 52⟩, ⟨",clearing_firm=", .string 4, 53⟩,
      ⟨",qty=", u, 57⟩, ⟨",price=", lu, 61⟩, ⟨",order_type=", c, 69⟩, ⟨",cancel_orig_on_reject=", c, 70⟩,
      ⟨",exec_inst=", orZero, 71⟩, ⟨",side=", c, 72⟩]
    close := ")" }

/-- The part of a `LoginResponse` before the units. -/
def loginResponse : Format :=
  { pieces := [⟨",status=", hhu, 10⟩, ⟨",text=", .string 60, 11⟩,
      ⟨",no_unspecified_unit_replay=", hhu, 71⟩, ⟨",last_received_seq_num=", u, 72⟩,
      ⟨",number_of_units=", hhu, 76⟩]
    close := "," }

/-- One unit of a `LoginResponse`. -/
def unit (i : ℕ) : Format :=
  { pieces := [⟨"matching_unit=", hhu, 77 + 5 * i⟩, ⟨",seq_num=", u, 78 + 5 * i⟩], close := "," }

def logoutResponse : Format :=
  { pieces := [⟨",reason=", c, 10⟩, ⟨",text=", .string 60, 11⟩, ⟨",last_received_seq_num=", u, 71⟩,
      ⟨",number_of_units=", hhu, 75⟩]
    close := ",..." }

/-- What messages about an order start with. The time is the text that `nsec_to_datetime` makes of it. -/
def ofOrder (time : List UInt8) : List Piece :=
  [⟨",transaction_time=", .given time, 10⟩, ⟨",clordid=", token, 18⟩]

/-- `reserved`, `num_bitfields` and five bitfields, which many messages have in a row. -/
def bitfields (off : ℕ) : List Piece :=
  [⟨",reserved=0x", x, off⟩, ⟨",num_bitfields=", hhu, off + 1⟩, ⟨",bitfield1=", hhu, off + 2⟩,
    ⟨",bitfield2=", hhu, off + 3⟩, ⟨",bitfield3=", hhu, off + 4⟩, ⟨",bitfield4=", hhu, off + 5⟩,
    ⟨",bitfield5=", hhu, off + 6⟩]

def orderAck (time : List UInt8) : Format :=
  { pieces := ofOrder time ++ (⟨",order_id=", lu, 38⟩ :: bitfields 46 ++ [⟨",leaves_qty=", u, 53⟩])
    close := ")" }

def orderModified (time : List UInt8) : Format :=
  { pieces := ofOrder time ++ (⟨",order_id=", lu, 38⟩ :: bitfields 46 ++ [⟨",price=", lu, 53⟩,
      ⟨",qty=", u, 61⟩, ⟨",leaves_qty=", u, 65⟩])
    close := ")" }

def orderCanceled (time : List UInt8) : Format :=
  { pieces := ofOrder time ++ (⟨",reason=", c, 38⟩ :: bitfields 39 ++ [⟨",leaves_qty=", u, 46⟩])
    close := ")" }

def orderExecution (time : List UInt8) : Format :=
  { pieces := ofOrder time ++ [⟨",exec_id=", lu, 38⟩, ⟨",last_shares=", u, 46⟩, ⟨",last_price=", lu, 50⟩,
      ⟨",leaves_qty=", u, 58⟩, ⟨",base_liquidity_indicator=", orZero, 62⟩,
      ⟨",sub_liquidity_indicator=", orZero, 63⟩, ⟨",contra_broker=", .string 4, 64⟩,
      ⟨",reserved=0x", .hex false, 68⟩, ⟨",num_bitfields=", hhu, 69⟩]
    close := ")" }

/-- What the three rejections show. -/
def rejected (time : List UInt8) (close : String) : Format :=
  { pieces := ofOrder time ++ [⟨",reason=0x", x, 38⟩, ⟨",text=", .string 60, 39⟩, ⟨",reserved=0x", x, 99⟩,
      ⟨",num_bitfields=", hhu, 100⟩]
    close := close }

def orderRejected (time : List UInt8) : Format := rejected time ")"
def cancelRejected (time : List UInt8) : Format := rejected time ")"
def modifyRejected (time : List UInt8) : Format := rejected time ",..."

def orderRestated (time : List UInt8) : Format :=
  { pieces := ofOrder time ++ (⟨",reason=0x", x, 46⟩ :: bitfields 47 ++ [⟨",qty=", u, 54⟩,
      ⟨",leaves_qty=", u, 58⟩])
    close := ")" }

def tradeCancelOrCorrect (time origTime : List UInt8) : Format :=
  { pieces := ofOrder time ++ [⟨",order_id=", lu, 38⟩, ⟨",exec_ref_id=", lu, 46⟩, ⟨",side=", c, 54⟩,
      ⟨",base_liquidity_indicator=", orZero, 55⟩, ⟨",clearing_firm=", .string 4, 56⟩,
      ⟨",clearing_acct=", .string 4, 60⟩, ⟨",last_shares=", u, 64⟩, ⟨",last_price=", lu, 68⟩,
      ⟨",corrected_price=", lu, 76⟩, ⟨",orig_time=", .given origTime, 84⟩, ⟨",reserved=0x", x, 92⟩,
      ⟨",num_bitfields=", hhu, 93⟩]
    close := ",..." }

/-! ## The functions -/

/-- `sizeof(buf)` -/
def sizeofBuf : ℕ := 4096

/-- The difference of two `size_t`. -/
def sizeSub (a b : ℕ) : ℕ := (a + 2 ^ 64 - b) % 2 ^ 64

/-- `MsgType::LoginResponse` -/
def loginResponseCode : UInt8 := 0x24

/-- The types whose `to_string` is one `snprintf`, with the texts of the two times. -/
def bodies (time origTime : List UInt8) : List (UInt8 × Format) :=
  [(0x37, loginRequest), (0x38, newOrder), (0x39, cancelOrder), (0x3a, modifyOrder),
    (0x08, logoutResponse), (0x25, orderAck time), (0x27, orderModified time), (0x2a, orderCanceled time),
    (0x2c, orderExecution time), (0x26, orderRejected time), (0x2b, cancelRejected time),
    (0x29, modifyRejected time), (0x28, orderRestated time), (0x2d, tradeCancelOrCorrect time origTime)]

/-- A turn of the loop over the units: the buffer, which starts at `pos` and has `len` bytes, and
`written`. -/
def unitStep (msg : Mem) (pos len : ℕ) (b : Mem × ℕ) (i : ℕ) : Mem × ℕ :=
  let r := snprintf b.1 (pos + b.2) (sizeSub len b.2) ((unit i).text msg)
  (r.1, b.2 + r.2)

/-- Before the loop. -/
def unitsStart (msg buf : Mem) (pos len : ℕ) : Mem × ℕ := snprintf buf pos len (loginResponse.text msg)

/-- The units of a message. -/
def units (msg : Mem) : List ℕ := List.range (msg 76).toNat

/-- Behind the loop. -/
def unitsEnd (msg buf : Mem) (pos len : ℕ) : Mem × ℕ :=
  Machine.run (unitStep msg pos len) (unitsStart msg buf pos len) (units msg)

/-- `to_string(const LoginResponse&)`, at `pos` with `len` bytes left. -/
def loginResponseToString (msg buf : Mem) (pos len : ℕ) : Mem × ℕ :=
  let b := unitsEnd msg buf pos len
  (put b.1 (pos + b.2 - 1) [')'.toUInt8, 0], b.2)

/-- The length of the header. -/
def headerLength (msg : Mem) : ℕ := ((header (msg 4)).text msg).length

/-- `bytes_left` -/
def bytesLeft (msg : Mem) : ℕ := sizeSub sizeofBuf (headerLength msg)

variable (datetime : UInt64 → List UInt8)

/-- The switch on the type, at `pos` with `len` bytes left. -/
def body (msg buf : Mem) (pos len : ℕ) : Mem × ℕ :=
  if msg 4 = loginResponseCode then loginResponseToString msg buf pos len
  else
    match (bodies (datetime (msg.u64 10)) (datetime (msg.u64 84))).lookup (msg 4) with
    | some f => snprintf buf pos len (f.text msg)
    | none => (put buf pos [')'.toUInt8, 0], 0)

/-- The buffer that `to_string` leaves, and the length of the string that it returns. -/
def fill (msg buf : Mem) : Mem × ℕ :=
  let h := snprintf buf 0 sizeofBuf ((header (msg 4)).text msg)
  let b := body datetime msg h.1 h.2 (bytesLeft msg)
  (b.1, b.2 + h.2)

end LogText

/-- `boe::to_string`, for any initial contents of the buffer. -/
def toString (datetime : UInt64 → List UInt8) (msg buf : Mem) : List UInt8 :=
  let r := LogText.fill datetime msg buf
  Printf.toString r.1 r.2

namespace LogText

variable (datetime : UInt64 → List UInt8)

/-! ## Inside the buffer -/

/-- `to_string` stays inside its buffer: in the loop over the units `written` does not exceed the bytes
that are left, behind it both writes are inside, the length of the string is, and nothing behind the
buffer is touched. -/
structure InBuffer (msg : Mem) : Prop where
  loop : msg 4 = loginResponseCode → ∀ buf,
    Along (unitStep msg (headerLength msg) (bytesLeft msg)) (fun b _ => b.2 ≤ bytesLeft msg)
        (unitsStart msg buf (headerLength msg) (bytesLeft msg)) (units msg) ∧
      (unitsEnd msg buf (headerLength msg) (bytesLeft msg)).2 ≤ bytesLeft msg
  marks : msg 4 = loginResponseCode → ∀ buf,
    1 ≤ (unitsEnd msg buf (headerLength msg) (bytesLeft msg)).2 ∧
      headerLength msg + (unitsEnd msg buf (headerLength msg) (bytesLeft msg)).2 < sizeofBuf
  length : ∀ buf, (toString datetime msg buf).length ≤ sizeofBuf
  frame : ∀ buf i, sizeofBuf ≤ i → (fill datetime msg buf).1 i = buf i

/-- The characters that the digits and the text of a `LoginResponse` come to with the 138 of its literals
and the 24 of each unit's. -/
def loginResponseLength (msg : Mem) : ℕ :=
  138 + digits (msg.leNat 2 2) + digits (msg.leNat 5 1) + digits (msg.leNat 6 4) +
    digits (msg.leNat 10 1) + (cstr msg 11 60).length + digits (msg.leNat 71 1) +
    digits (msg.leNat 72 4) + digits (msg.leNat 76 1) +
    ((units msg).map fun i =>
      24 + digits (msg.leNat (77 + 5 * i) 1) + digits (msg.leNat (78 + 5 * i) 4)).sum

/-! ### Widths -/

/-- A difference of sizes that is not negative does not wrap around. -/
theorem sizeSub_of_le {a b : ℕ} (h : b ≤ a) (ha : a < 2 ^ 64) : sizeSub a b = a - b := by
  unfold sizeSub
  omega

/-- No name of a message type is longer than twenty characters. -/
theorem length_msgTypeName_le (type : UInt8) : (bytes (msgTypeName type)).length ≤ 20 := by
  have hall : ∀ e ∈ msgTypeNames, (bytes e.2).length ≤ 20 := by decide +kernel
  unfold msgTypeName
  rcases hlook : msgTypeNames.lookup type with _ | name
  · exact Nat.le_of_ble_eq_true rfl
  · obtain ⟨l, l', hsplit, -⟩ := List.lookup_eq_some_iff.mp hlook
    exact hall (type, name) (hsplit ▸ List.mem_append_right _ List.mem_cons_self)

/-- The texts of the header are twenty characters at most. -/
theorem header_givenLe (type : UInt8) : (header type).GivenLe 20 := by
  intro p hp
  unfold header at hp
  simp only [List.mem_cons, List.not_mem_nil, or_false] at hp
  rcases hp with rfl | rfl | rfl | rfl | rfl
  · exact length_msgTypeName_le type
  all_goals trivial

/-- The header leaves most of the buffer. -/
theorem headerLength_le (msg : Mem) : headerLength msg ≤ 100 := by
  unfold headerLength
  rw [Format.length_text]
  exact (Format.width_le (header_givenLe (msg 4)) msg).trans (Nat.le_of_ble_eq_true rfl)

/-- What the header leaves is the rest of the buffer. -/
theorem bytesLeft_eq (msg : Mem) : headerLength msg + bytesLeft msg = sizeofBuf := by
  have hheader := headerLength_le msg
  have hle : headerLength msg ≤ sizeofBuf := hheader.trans (by decide)
  unfold bytesLeft
  rw [sizeSub_of_le hle (by decide)]
  omega

/-- The texts of a message about an order are a timestamp at most. -/
theorem givenLe_ofOrder {time : List UInt8} (htime : time.length < 32) {rest : List Piece} {close : String}
    (hrest : ∀ p ∈ rest, p.conv.GivenLe 31) :
    ({ pieces := ofOrder time ++ rest, close := close } : Format).GivenLe 31 := by
  refine List.forall_mem_append.mpr ⟨?_, hrest⟩
  exact List.forall_mem_cons.mpr ⟨Nat.le_of_lt_succ htime, List.forall_mem_singleton.mpr trivial⟩

/-- The texts of every body are a timestamp at most. -/
theorem bodies_givenLe {time origTime : List UInt8} (htime : time.length < 32)
    (horig : origTime.length < 32) : ∀ e ∈ bodies time origTime, e.2.GivenLe 31 := by
  have htrade : (tradeCancelOrCorrect time origTime).GivenLe 31 := by
    refine givenLe_ofOrder htime ?_
    simp only [List.forall_mem_cons, Conv.GivenLe, true_and, Nat.le_of_lt_succ horig]
    exact List.forall_mem_nil _
  unfold bodies
  simp only [List.forall_mem_cons]
  refine ⟨by decide +kernel, by decide +kernel, by decide +kernel, by decide +kernel, by decide +kernel,
    givenLe_ofOrder htime (by decide +kernel), givenLe_ofOrder htime (by decide +kernel),
    givenLe_ofOrder htime (by decide +kernel), givenLe_ofOrder htime (by decide +kernel),
    givenLe_ofOrder htime (by decide +kernel), givenLe_ofOrder htime (by decide +kernel),
    givenLe_ofOrder htime (by decide +kernel), givenLe_ofOrder htime (by decide +kernel), htrade,
    List.forall_mem_nil _⟩

/-- Every other message fits by far. -/
theorem bodies_width_le {time origTime : List UInt8} (htime : time.length < 32)
    (horig : origTime.length < 32) {e : UInt8 × Format} (he : e ∈ bodies time origTime) (msg : Mem) :
    e.2.width msg ≤ 3000 := by
  -- the bound does not look at the texts of the times
  have hsame : (bodies time origTime).map (fun e => e.2.maxWidth 31) =
      (bodies [] []).map fun e => e.2.maxWidth 31 := rfl
  have hmax : ∀ n ∈ (bodies [] []).map (fun e => e.2.maxWidth 31), n ≤ 3000 := by decide +kernel
  exact (Format.width_le (bodies_givenLe htime horig e he) msg).trans
    (hmax _ (hsame ▸ List.mem_map_of_mem he))

/-! ### The loop over the units -/

section

variable (msg : Mem) {pos len : ℕ}

/-- A unit moves the place to write to behind itself. -/
theorem unitStep_written (b : Mem × ℕ) (i : ℕ) :
    (unitStep msg pos len b i).2 = b.2 + (unit i).width msg := by
  rw [← Format.length_text]
  rfl

/-- The lengths add up. -/
theorem run_unitStep_written (b : Mem × ℕ) (is : List ℕ) :
    (Machine.run (unitStep msg pos len) b is).2 = b.2 + (is.map fun i => (unit i).width msg).sum := by
  induction is generalizing b with
  | nil => rfl
  | cons i is ih =>
    rw [run_cons, ih, unitStep_written, List.map_cons, List.sum_cons, Nat.add_assoc]

/-- If they do not come to more than the bytes left, the loop stays among these. -/
theorem run_unitStep_inside (hlen : len < 2 ^ 64) {b : Mem × ℕ} {is : List ℕ}
    (h : (Machine.run (unitStep msg pos len) b is).2 ≤ len) :
    Along (unitStep msg pos len) (fun b _ => b.2 ≤ len) b is ∧
      ∀ i, pos + len ≤ i → (Machine.run (unitStep msg pos len) b is).1 i = b.1 i := by
  induction is generalizing b with
  | nil => exact ⟨trivial, fun _ _ => rfl⟩
  | cons j is ih =>
    have hb : b.2 ≤ len := by
      rw [run_unitStep_written] at h
      omega
    rw [run_cons] at h ⊢
    obtain ⟨hloop, hframe⟩ := ih h
    refine ⟨⟨hb, hloop⟩, fun i hi => (hframe i hi).trans ?_⟩
    refine snprintf_of_le ?_ b.1 _
    rw [sizeSub_of_le hb hlen]
    omega

end

/-- What the loop comes to. -/
theorem unitsEnd_written (msg buf : Mem) (pos len : ℕ) : (unitsEnd msg buf pos len).2 =
    loginResponse.width msg + ((units msg).map fun i => (unit i).width msg).sum := by
  unfold unitsEnd
  rw [run_unitStep_written, ← Format.length_text]
  rfl

/-- The width of a unit by the digits of its numbers. -/
theorem unit_width (msg : Mem) (i : ℕ) : (unit i).width msg =
    24 + digits (msg.leNat (77 + 5 * i) 1) + digits (msg.leNat (78 + 5 * i) 4) := by
  have hunit : (bytes "matching_unit=").length = 14 := rfl
  have hseq : (bytes ",seq_num=").length = 9 := rfl
  have hclose : (bytes ",").length = 1 := rfl
  simp only [Format.width, unit, List.map_cons, List.map_nil, List.sum_cons, List.sum_nil, Conv.width,
    ByteOrder.read, hunit, hseq, hclose]
  omega

/-- The width of the header by the digits of its numbers. -/
theorem header_width {msg : Mem} (h : msg 4 = loginResponseCode) : headerLength msg =
    55 + digits (msg.leNat 2 2) + digits (msg.leNat 5 1) + digits (msg.leNat 6 4) := by
  have hname : (bytes (msgTypeName loginResponseCode)).length = 13 := by decide +kernel
  have hempty : (bytes "").length = 0 := rfl
  have hlength : (bytes "(length=").length = 8 := rfl
  have htype : (bytes ",type=0x").length = 8 := rfl
  have hunit : (bytes ",matching_unit=").length = 15 := rfl
  have hseq : (bytes ",seq_num=").length = 9 := rfl
  unfold headerLength
  rw [Format.length_text, h]
  simp only [Format.width, header, List.map_cons, List.map_nil, List.sum_cons, List.sum_nil, Conv.width,
    ByteOrder.read, hname, hempty, hlength, htype, hunit, hseq, Bool.not_true, Bool.false_and,
    Bool.false_eq_true, if_false]
  omega

/-- The width of a `LoginResponse` without its units. -/
theorem loginResponse_width (msg : Mem) : loginResponse.width msg =
    83 + digits (msg.leNat 10 1) + (cstr msg 11 60).length + digits (msg.leNat 71 1) +
      digits (msg.leNat 72 4) + digits (msg.leNat 76 1) := by
  have hstatus : (bytes ",status=").length = 8 := rfl
  have htext : (bytes ",text=").length = 6 := rfl
  have hreplay : (bytes ",no_unspecified_unit_replay=").length = 28 := rfl
  have hseq : (bytes ",last_received_seq_num=").length = 23 := rfl
  have hunits : (bytes ",number_of_units=").length = 17 := rfl
  have hclose : (bytes ",").length = 1 := rfl
  simp only [Format.width, loginResponse, List.map_cons, List.map_nil, List.sum_cons, List.sum_nil,
    Conv.width, ByteOrder.read, hstatus, htext, hreplay, hseq, hunits, hclose]
  omega

/-- The string of a `LoginResponse` has the length that its digits say. -/
theorem headerLength_add_written {msg : Mem} (h : msg 4 = loginResponseCode) (buf : Mem) (pos len : ℕ) :
    headerLength msg + (unitsEnd msg buf pos len).2 = loginResponseLength msg := by
  rw [unitsEnd_written, header_width h, loginResponse_width]
  simp only [unit_width]
  unfold loginResponseLength
  omega

/-! ### Every message -/

/-- `written` is not 0 behind the loop. -/
theorem unitsEnd_pos (msg buf : Mem) (pos len : ℕ) : 1 ≤ (unitsEnd msg buf pos len).2 := by
  rw [unitsEnd_written, loginResponse_width]
  omega

variable {datetime}

/-- It is enough to look at what comes behind the header. -/
theorem inBuffer_of_body {msg : Mem} (hloop : msg 4 = loginResponseCode → ∀ buf,
      Along (unitStep msg (headerLength msg) (bytesLeft msg)) (fun b _ => b.2 ≤ bytesLeft msg)
          (unitsStart msg buf (headerLength msg) (bytesLeft msg)) (units msg) ∧
        (unitsEnd msg buf (headerLength msg) (bytesLeft msg)).2 < bytesLeft msg)
    (hlength : ∀ buf, (body datetime msg buf (headerLength msg) (bytesLeft msg)).2 ≤ bytesLeft msg)
    (hframe : ∀ buf i, sizeofBuf ≤ i →
      (body datetime msg buf (headerLength msg) (bytesLeft msg)).1 i = buf i) :
    InBuffer datetime msg := by
  have hleft := bytesLeft_eq msg
  refine ⟨fun h buf => ?_, fun h buf => ?_, fun buf => ?_, fun buf i hi => ?_⟩
  · exact ⟨(hloop h buf).1, (hloop h buf).2.le⟩
  · have hin := (hloop h buf).2
    exact ⟨unitsEnd_pos msg buf _ _, by omega⟩
  · have hle := hlength (snprintf buf 0 sizeofBuf ((header (msg 4)).text msg)).1
    rw [toString, length_toString]
    exact (Nat.add_le_add_right hle (headerLength msg)).trans (by omega)
  · refine (hframe _ i hi).trans (snprintf_of_le ?_ buf _)
    omega

/-- A message that is no `LoginResponse` stays in the buffer. -/
theorem inBuffer_of_ne (htime : ∀ t, (datetime t).length < 32) {msg : Mem}
    (h : msg 4 ≠ loginResponseCode) : InBuffer datetime msg := by
  have hheader := headerLength_le msg
  have hleft := bytesLeft_eq msg
  have hsize : sizeofBuf = 4096 := rfl
  refine inBuffer_of_body (fun h' => absurd h' h) ?_ ?_
  all_goals
    simp only [body, if_neg h]
    rcases hlook : (bodies (datetime (msg.u64 10)) (datetime (msg.u64 84))).lookup (msg 4) with _ | f
  · exact fun _ => Nat.zero_le _
  · obtain ⟨l, l', hsplit, -⟩ := List.lookup_eq_some_iff.mp hlook
    have hwidth : f.width msg ≤ 3000 := bodies_width_le (e := (msg 4, f)) (htime _) (htime _)
      (hsplit ▸ List.mem_append_right _ List.mem_cons_self) msg
    intro buf
    show (f.text msg).length ≤ bytesLeft msg
    rw [f.length_text]
    omega
  · intro buf i hi
    refine put_of_le ?_ buf
    show headerLength msg + 2 ≤ i
    omega
  · exact fun buf i hi => snprintf_of_le (by omega) buf _

/-- A `LoginResponse` stays in the buffer if its string does. -/
theorem inBuffer_loginResponse {msg : Mem} (h : msg 4 = loginResponseCode)
    (hfits : loginResponseLength msg < sizeofBuf) : InBuffer datetime msg := by
  have hleft := bytesLeft_eq msg
  have hinside : ∀ buf, (unitsEnd msg buf (headerLength msg) (bytesLeft msg)).2 < bytesLeft msg := by
    intro buf
    have hsum := headerLength_add_written h buf (headerLength msg) (bytesLeft msg)
    omega
  have hsize : bytesLeft msg < 2 ^ 64 := lt_of_le_of_lt (b := sizeofBuf) (by omega) (by decide)
  have hrun : ∀ buf,
      Along (unitStep msg (headerLength msg) (bytesLeft msg)) (fun b _ => b.2 ≤ bytesLeft msg)
          (unitsStart msg buf (headerLength msg) (bytesLeft msg)) (units msg) ∧
        ∀ i, headerLength msg + bytesLeft msg ≤ i →
          (unitsEnd msg buf (headerLength msg) (bytesLeft msg)).1 i =
            (unitsStart msg buf (headerLength msg) (bytesLeft msg)).1 i :=
    fun buf => run_unitStep_inside msg hsize (hinside buf).le
  refine inBuffer_of_body (fun _ buf => ⟨(hrun buf).1, hinside buf⟩) ?_ ?_
  all_goals
    simp only [body, if_pos h]
  · exact fun buf => (hinside buf).le
  · intro buf i hi
    have hin := hinside buf
    have hpos := unitsEnd_pos msg buf (headerLength msg) (bytesLeft msg)
    refine (put_of_le ?_ _).trans (((hrun buf).2 i (by omega)).trans (snprintf_of_le (by omega) buf _))
    show headerLength msg + (unitsEnd msg buf (headerLength msg) (bytesLeft msg)).2 - 1 + 2 ≤ i
    omega

/-- The string of the message and the NUL behind it fit the buffer. -/
def Fits (msg : Mem) : Prop := msg 4 = loginResponseCode → loginResponseLength msg < sizeofBuf

instance : DecidablePred Fits := fun _ => inferInstanceAs (Decidable (_ → _))

/-- A text that stays in the buffer fits. -/
theorem fits_of_inBuffer {msg : Mem} (hin : InBuffer datetime msg) : Fits msg := by
  intro h
  have hmarks := (hin.marks h fun _ => 0).2
  rwa [headerLength_add_written h] at hmarks

/-- A text that fits stays in the buffer. -/
theorem inBuffer_of_fits (htime : ∀ t, (datetime t).length < 32) {msg : Mem} (hfits : Fits msg) :
    InBuffer datetime msg := by
  by_cases h : msg 4 = loginResponseCode
  · exact inBuffer_loginResponse h (hfits h)
  · exact inBuffer_of_ne htime h

/-- **Inside the buffer.** `boe::to_string` stays inside its buffer for every message but a `LoginResponse`,
and for this exactly if its characters and the NUL behind them fit. -/
theorem inBuffer_iff (htime : ∀ t, (datetime t).length < 32) (msg : Mem) :
    InBuffer datetime msg ↔ (msg 4 = loginResponseCode → loginResponseLength msg < sizeofBuf) :=
  ⟨fits_of_inBuffer, inBuffer_of_fits htime⟩

/-- A `LoginResponse` that says that it has `n` units. -/
def responseOf (n : UInt8) : Mem := fun i => if i = 4 then loginResponseCode else if i = 76 then n else 0

/-- Two units fit. -/
theorem inBuffer_responseOf_two : InBuffer (fun _ => bytes "1970-01-01 00:00:00.000000000") (responseOf 2) :=
  (inBuffer_iff (fun _ => by decide +kernel) (responseOf 2)).mpr fun _ => by decide +kernel

/-- Even the smallest numbers of 255 units do not. -/
theorem not_inBuffer_responseOf_255 :
    ¬ ∀ datetime : UInt64 → List UInt8, (∀ t, (datetime t).length < 32) →
      ∀ msg : Mem, InBuffer datetime msg := by
  intro h
  have hin := h (fun _ => []) (fun _ => by decide) (responseOf 255)
  have hmarks := (hin.marks rfl fun _ => 0).2
  rw [headerLength_add_written rfl] at hmarks
  revert hmarks
  decide +kernel

/-! ### What may follow a message -/

/-- Greater bytes make no shorter text. -/
theorem loginResponseLength_mono {msg msg' : Mem} (h : ∀ i, msg i ≤ msg' i) :
    loginResponseLength msg ≤ loginResponseLength msg' := by
  have hdigits : ∀ off k, digits (msg.leNat off k) ≤ digits (msg'.leNat off k) :=
    fun off k => digits_mono (leNat_mono h off k)
  have htext := length_cstr_mono h 11 60
  have hunits : (units msg).Sublist (units msg') := List.range_sublist.mpr (h 76)
  have hsum : ((units msg).map fun i =>
        24 + digits (msg.leNat (77 + 5 * i) 1) + digits (msg.leNat (78 + 5 * i) 4)).sum ≤
      ((units msg').map fun i =>
        24 + digits (msg'.leNat (77 + 5 * i) 1) + digits (msg'.leNat (78 + 5 * i) 4)).sum := by
    refine (List.sum_le_sum fun i _ => ?_).trans ((hunits.map _).sum_le_sum fun _ _ => Nat.zero_le _)
    exact Nat.add_le_add (Nat.add_le_add_left (hdigits _ _) 24) (hdigits _ _)
  have h2 := hdigits 2 2
  have h5 := hdigits 5 1
  have h6 := hdigits 6 4
  have h10 := hdigits 10 1
  have h71 := hdigits 71 1
  have h72 := hdigits 72 4
  have h76 := hdigits 76 1
  unfold loginResponseLength
  omega

/-- A message fits whatever follows it exactly if it does with the greatest bytes behind it. -/
theorem forall_fits_write_iff {bs : List UInt8} (hlong : 4 < bs.length) :
    (∀ behind, Fits (Mem.write bs behind)) ↔ Fits (followedBy bs 0xFF) := by
  refine ⟨fun h => h _, fun h behind htype => ?_⟩
  have htype' : followedBy bs 0xFF 4 = loginResponseCode := (write_congr hlong _ behind).trans htype
  refine (loginResponseLength_mono fun i => ?_).trans_lt (h htype')
  by_cases hi : i < bs.length
  · exact UInt8.le_of_eq (write_congr hi behind _)
  · rw [followedBy_of_le (Nat.not_lt.mp hi)]
    exact Nat.le_of_lt_succ (UInt8.toNat_lt _)

/-- A unit comes to no more than 41 characters. -/
theorem loginResponseLength_le (msg : Mem) : loginResponseLength msg ≤ 247 + 41 * (msg 76).toNat := by
  have hdigits : ∀ off k, digits (msg.leNat off k) ≤ 3 * k + 1 :=
    fun off k => digits_le (leNat_lt msg off k).le
  have htext := length_cstr_le msg 11 60
  have hsum : ((units msg).map fun i =>
      24 + digits (msg.leNat (77 + 5 * i) 1) + digits (msg.leNat (78 + 5 * i) 4)).sum ≤
        (units msg).length • 41 := by
    rw [← List.length_map]
    refine List.sum_le_card_nsmul _ _ fun n hn => ?_
    obtain ⟨i, -, rfl⟩ := List.mem_map.mp hn
    have hnumber := hdigits (77 + 5 * i) 1
    have hseq := hdigits (78 + 5 * i) 4
    omega
  rw [units, List.length_range, nsmul_eq_mul, Nat.cast_id] at hsum
  have h2 := hdigits 2 2
  have h5 := hdigits 5 1
  have h6 := hdigits 6 4
  have h10 := hdigits 10 1
  have h71 := hdigits 71 1
  have h72 := hdigits 72 4
  have h76 := hdigits 76 1
  unfold loginResponseLength
  unfold units
  omega

/-- A message with a few units fits. -/
theorem fits_of_units_le {msg : Mem} (h : (msg 76).toNat ≤ 93) : Fits msg := by
  intro _
  have hle := loginResponseLength_le msg
  show loginResponseLength msg < 4096
  omega

end LogText

end Boe

end Evtsim
