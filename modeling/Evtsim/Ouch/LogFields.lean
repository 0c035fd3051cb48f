import Evtsim.Ouch.LogText
import Evtsim.Ouch.Echo

/-!
# What the log shows of an order message

The formatters of the four order messages read the packet on their own, beside `from_network`.
`logsValues_iff` says for which packets they show the numbers and tokens that the session acts on. They
do for three of the messages; that of `ReplaceOrder` leaves `min_qty` in network order and prints the
existing token in place, so that the text runs on into the new one.
-/

namespace Evtsim

open Wire Printf Decimal

namespace Ouch

/-- `_str_().c_str()` -/
def Token.cStr (t : Token) : List UInt8 := t.str.takeWhile (· != 0)

/-! ## What is to be shown -/

/-- The numbers and tokens of a message, by the literal that the log has before each. -/
abbrev Logged := List (String × List UInt8)

def EnterOrder.logged (length : UInt16) (eo : EnterOrder) : Logged :=
  [("EnterOrder(length=", print length.toNat), (",clordid=", eo.token.cStr),
    (",qty=", print eo.qty.toNat), (",price=", printInt eo.price.toInt),
    (",time_in_force=", print eo.timeInForce.toNat), (",min_qty=", print eo.minQty.toNat)]

def CancelOrder.logged (length : UInt16) (co : CancelOrder) : Logged :=
  [("CancelOrder(length=", print length.toNat), (",clordid=", co.token.cStr),
    (",qty=", print co.qty.toNat)]

def ModifyOrder.logged (length : UInt16) (mo : ModifyOrder) : Logged :=
  [("ModifyOrder(length=", print length.toNat), (",clordid=", mo.token.cStr),
    (",qty=", print mo.qty.toNat)]

def ReplaceOrder.logged (length : UInt16) (ro : ReplaceOrder) : Logged :=
  [("ReplaceOrder(length=", print length.toNat), (",existing_clordid=", ro.existingToken.cStr),
    (",clordid=", ro.token.cStr), (",qty=", print ro.qty.toNat), (",price=", printInt ro.price.toInt),
    (",time_in_force=", print ro.timeInForce.toNat), (",min_qty=", print ro.minQty.toNat)]

namespace LogText

/-! ## What is shown -/

/-- What the text has behind each literal. -/
def Switches.shown (sw : Switches) (hdr : Mem) : Logged :=
  match sw.branch hdr with
  | .snprintf f => f.pieces.map fun p => (p.before, p.conv.text hdr p.off)
  | .strcpy _ => []

/-- `outbound_to_string` shows these values. -/
def Shows (hdr : Mem) (fields : Logged) : Prop :=
  ∀ e ∈ fields, (outbound.shown hdr).lookup e.1 = some e.2

/-- The log of an order message shows the values of the message after `from_network`, and `length` for its
length. -/
def LogsValues (length : UInt16) (hdr : Mem) : Prop :=
  hdr 2 = PacketType.unsequencedData.code →
    (hdr 3 = OutboundMsgType.enterOrder.code →
      Shows hdr ((EnterOrder.ofMem hdr).fromNetwork.logged length)) ∧
    (hdr 3 = OutboundMsgType.replaceOrder.code →
      Shows hdr ((ReplaceOrder.ofMem hdr).fromNetwork.logged length)) ∧
    (hdr 3 = OutboundMsgType.cancelOrder.code →
      Shows hdr ((CancelOrder.ofMem hdr).fromNetwork.logged length)) ∧
    (hdr 3 = OutboundMsgType.modifyOrder.code →
      Shows hdr ((ModifyOrder.ofMem hdr).fromNetwork.logged length))

/-- A `ReplaceOrder` has a NUL in its existing token or right behind it, and a `min_qty` that reads the
same from either end. -/
def ReplaceLegible (hdr : Mem) : Prop :=
  hdr 2 = PacketType.unsequencedData.code → hdr 3 = OutboundMsgType.replaceOrder.code →
    (∃ i, i < 15 ∧ hdr (4 + i) = 0) ∧ hdr 46 = hdr 49 ∧ hdr 47 = hdr 48

/-- An `EnterOrder`, `ReplaceOrder`, `CancelOrder` or `ModifyOrder`. -/
def IsOrderMessage (hdr : Mem) : Prop :=
  hdr 2 = PacketType.unsequencedData.code ∧
    (hdr 3 = OutboundMsgType.enterOrder.code ∨ hdr 3 = OutboundMsgType.replaceOrder.code ∨
      hdr 3 = OutboundMsgType.cancelOrder.code ∨ hdr 3 = OutboundMsgType.modifyOrder.code)

/-- The fields that a branch with a format shows. -/
theorem shown_of_branch {sw : Switches} {hdr : Mem} {f : Format} (h : sw.branch hdr = .snprintf f) :
    sw.shown hdr = f.pieces.map fun p => (p.before, p.conv.text hdr p.off) := by
  unfold Switches.shown
  rw [h]

/-- The returned string is made of the literals and what is shown behind them. -/
theorem toString_eq_shown {sw : Switches} {hdr : Mem} {f : Format} (h : sw.branch hdr = .snprintf f)
    (hfits : f.width hdr < sizeofBuf) (buf : Mem) :
    sw.toString buf hdr = (sw.shown hdr).flatMap (fun e => bytes e.1 ++ e.2) ++ bytes f.close := by
  rw [shown_of_branch h, toString_of_branch h (by rw [f.length_text]; exact hfits), List.flatMap_map]
  rfl

/-! ## One field -/

/-- A swapped word is the number that its bytes spell. -/
theorem toNat_byteSwap32_u32 (m : Mem) (off : ℕ) : (byteSwap32 (m.u32 off)).toNat = m.beNat off 4 := by
  rw [byteSwap32_u32]
  exact UInt32.toNat_ofNat_of_lt' (beNat_lt m off 4)

/-- `%d` shows the number that a signed field holds. -/
theorem toInt_toInt32 (n : UInt32) : n.toInt32.toInt = toSigned 4 n.toNat := by
  show n.toBitVec.toInt = _
  rw [BitVec.toInt_eq_toNat_cond]
  rfl

/-- A swapped word read as signed is the signed number that its bytes spell. -/
theorem toInt_byteSwap32_u32 (m : Mem) (off : ℕ) :
    (byteSwap32 (m.u32 off).toInt32.toUInt32).toInt32.toInt = toSigned 4 (m.beNat off 4) := by
  rw [UInt32.toUInt32_toInt32, toInt_toInt32, toNat_byteSwap32_u32]

/-- A string ends before its first NUL. -/
theorem cstr_eq_takeWhile (m : Mem) (off n : ℕ) :
    cstr m off n = (List.ofFn (m.chars off n)).takeWhile (· != 0) := by
  induction n generalizing off with
  | zero => rfl
  | succ n ih =>
    have hrest : (fun i : Fin n => m.chars off (n + 1) i.succ) = m.chars (off + 1) n := by
      funext i
      show m (off + (i + 1)) = m (off + 1 + i)
      rw [Nat.add_assoc, Nat.add_comm 1]
    rw [cstr, ih, List.ofFn_succ, hrest, List.takeWhile_cons]
    show _ = if (m off != 0) = true then m off :: _ else []
    by_cases h0 : m off = 0
    · rw [if_pos h0, h0]
      rfl
    · rw [if_neg h0, if_pos (bne_iff_ne.mpr h0)]

/-- A token is shown up to its first NUL. -/
theorem cStr_ofMem (m : Mem) (off : ℕ) : (Token.ofMem m off).cStr = cstr m off 14 :=
  (cstr_eq_takeWhile m off 14).symm

/-- A string may be read further than its array exactly if it ends in the array or right behind it. -/
theorem cstr_eq_iff (m : Mem) (off n k : ℕ) :
    cstr m off (n + k + 1) = cstr m off n ↔ ∃ i, i < n + 1 ∧ m (off + i) = 0 := by
  induction n generalizing off with
  | zero =>
    rw [Nat.zero_add, cstr, cstr]
    constructor
    · intro h
      by_contra hno
      have h0 : m off ≠ 0 := fun h0 => hno ⟨0, Nat.one_pos, h0⟩
      rw [if_neg h0] at h
      cases h
    · rintro ⟨i, hi, h0⟩
      obtain rfl : i = 0 := by omega
      exact if_pos h0
  | succ n ih =>
    rw [Nat.add_right_comm n 1 k]
    show (if m off = 0 then [] else m off :: cstr m (off + 1) (n + k + 1)) =
      (if m off = 0 then [] else m off :: cstr m (off + 1) n) ↔ _
    by_cases h0 : m off = 0
    · -- the string ends here, whatever the bound
      rw [if_pos h0, if_pos h0]
      exact iff_of_true rfl ⟨0, Nat.succ_pos _, h0⟩
    · rw [if_neg h0, if_neg h0, List.cons.injEq, and_iff_right rfl, ih]
      -- a NUL behind this character is one of the rest
      constructor
      · rintro ⟨i, hi, hnul⟩
        refine ⟨i + 1, Nat.succ_lt_succ hi, ?_⟩
        rwa [Nat.add_right_comm, Nat.add_assoc] at hnul
      · rintro ⟨i, hi, hnul⟩
        cases i with
        | zero => exact absurd hnul h0
        | succ i =>
          refine ⟨i, Nat.lt_of_succ_lt_succ hi, ?_⟩
          rwa [Nat.add_right_comm, Nat.add_assoc]

/-- Four bytes read the same in either order exactly if they are the same from either end. -/
theorem leNat_eq_beNat_iff (m : Mem) (off : ℕ) :
    m.leNat off 4 = m.beNat off 4 ↔ m off = m (off + 3) ∧ m (off + 1) = m (off + 2) := by
  have hlt : ∀ i, (m i).toNat < 256 := fun i => (m i).toNat_lt
  have h0 := hlt off
  have h1 := hlt (off + 1)
  have h2 := hlt (off + 2)
  have h3 := hlt (off + 3)
  simp only [Mem.leNat, Mem.beNat, ← UInt8.toNat_inj, Nat.add_assoc]
  norm_num
  omega

/-! ## One message -/

/-- No fields are always shown. -/
theorem shows_nil (hdr : Mem) : Shows hdr [] ↔ True := iff_of_true (List.forall_mem_nil _) trivial

/-- A list of fields is shown field by field. -/
theorem shows_cons (hdr : Mem) (e : String × List UInt8) (fields : Logged) :
    Shows hdr (e :: fields) ↔ (outbound.shown hdr).lookup e.1 = some e.2 ∧ Shows hdr fields :=
  List.forall_mem_cons

section

variable {hdr : Mem} (hdata : hdr 2 = PacketType.unsequencedData.code) (length : UInt16)

include hdata

/-- A packet of unsequenced data takes the branch of its message type. -/
theorem branch_data {b : UInt8} (hmsg : hdr 3 = b) : outbound.branch hdr =
    (outbound.messages.lookup b).getD (.strcpy outbound.unknown) := by
  unfold Switches.branch
  rw [hmsg]
  exact if_pos hdata

/-- An `EnterOrder` is shown as it was parsed, if its length is. -/
theorem shows_enterOrder (hmsg : hdr 3 = OutboundMsgType.enterOrder.code) :
    Shows hdr ((EnterOrder.ofMem hdr).fromNetwork.logged length) ↔ length.toNat = hdr.beNat 0 2 := by
  have hshown := shown_of_branch (f := enterOrder) (branch_data hdata hmsg)
  unfold EnterOrder.logged
  simp only [shows_cons, shows_nil, hshown]
  constructor
  · rintro ⟨hlength, -⟩
    exact (print_injective (Option.some.inj hlength)).symm
  · intro hlength
    exact ⟨congrArg (some ∘ print) hlength.symm, congrArg some (cStr_ofMem hdr 4).symm,
      congrArg (some ∘ print) (toNat_byteSwap32_u32 hdr 19).symm,
      congrArg (some ∘ printInt) (toInt_byteSwap32_u32 hdr 31).symm,
      congrArg (some ∘ print) (toNat_byteSwap32_u32 hdr 35).symm,
      congrArg (some ∘ print) (toNat_byteSwap32_u32 hdr 46).symm, trivial⟩

/-- A `CancelOrder` is shown as it was parsed, if its length is. -/
theorem shows_cancelOrder (hmsg : hdr 3 = OutboundMsgType.cancelOrder.code) :
    Shows hdr ((CancelOrder.ofMem hdr).fromNetwork.logged length) ↔ length.toNat = hdr.beNat 0 2 := by
  have hshown := shown_of_branch (f := cancelOrder) (branch_data hdata hmsg)
  unfold CancelOrder.logged
  simp only [shows_cons, shows_nil, hshown]
  constructor
  · rintro ⟨hlength, -⟩
    exact (print_injective (Option.some.inj hlength)).symm
  · intro hlength
    exact ⟨congrArg (some ∘ print) hlength.symm, congrArg some (cStr_ofMem hdr 4).symm,
      congrArg (some ∘ print) (toNat_byteSwap32_u32 hdr 18).symm, trivial⟩

/-- A `ModifyOrder` is shown as it was parsed, if its length is. -/
theorem shows_modifyOrder (hmsg : hdr 3 = OutboundMsgType.modifyOrder.code) :
    Shows hdr ((ModifyOrder.ofMem hdr).fromNetwork.logged length) ↔ length.toNat = hdr.beNat 0 2 := by
  have hshown := shown_of_branch (f := modifyOrder) (branch_data hdata hmsg)
  unfold ModifyOrder.logged
  simp only [shows_cons, shows_nil, hshown]
  constructor
  · rintro ⟨hlength, -⟩
    exact (print_injective (Option.some.inj hlength)).symm
  · intro hlength
    exact ⟨congrArg (some ∘ print) hlength.symm, congrArg some (cStr_ofMem hdr 4).symm,
      congrArg (some ∘ print) (toNat_byteSwap32_u32 hdr 19).symm, trivial⟩

/-- The existing token is read on until a NUL comes, and `min_qty` is not swapped. -/
theorem shows_replaceOrder (hmsg : hdr 3 = OutboundMsgType.replaceOrder.code) :
    Shows hdr ((ReplaceOrder.ofMem hdr).fromNetwork.logged length) ↔
      length.toNat = hdr.beNat 0 2 ∧ (∃ i, i < 15 ∧ hdr (4 + i) = 0) ∧ hdr 46 = hdr 49 ∧
        hdr 47 = hdr 48 := by
  have hshown := shown_of_branch (f := replaceOrder) (branch_data hdata hmsg)
  have htoken : cstr hdr 4 (2 ^ 64) = cstr hdr 4 14 ↔ ∃ i, i < 15 ∧ hdr (4 + i) = 0 :=
    cstr_eq_iff hdr 4 14 (2 ^ 64 - 15)
  rw [← htoken, ← leNat_eq_beNat_iff hdr 46]
  unfold ReplaceOrder.logged
  simp only [shows_cons, shows_nil, hshown]
  constructor
  · rintro ⟨hlength, hexisting, -, -, -, -, hminQty, -⟩
    refine ⟨(print_injective (Option.some.inj hlength)).symm, ?_, ?_⟩
    · exact (Option.some.inj hexisting).trans (cStr_ofMem hdr 4)
    · exact (print_injective (Option.some.inj hminQty)).trans (toNat_byteSwap32_u32 hdr 46)
  · rintro ⟨hlength, hexisting, hminQty⟩
    exact ⟨congrArg (some ∘ print) hlength.symm,
      congrArg some (hexisting.trans (cStr_ofMem hdr 4).symm), congrArg some (cStr_ofMem hdr 18).symm,
      congrArg (some ∘ print) (toNat_byteSwap32_u32 hdr 32).symm,
      congrArg (some ∘ printInt) (toInt_byteSwap32_u32 hdr 36).symm,
      congrArg (some ∘ print) (toNat_byteSwap32_u32 hdr 40).symm,
      congrArg (some ∘ print) (hminQty.trans (toNat_byteSwap32_u32 hdr 46).symm), trivial⟩

end

/-! ## Every packet -/

/-- An order message shows its values if the length is shown and a `ReplaceOrder` can be read. -/
theorem logsValues_iff_length (length : UInt16) (hdr : Mem) : LogsValues length hdr ↔
    ReplaceLegible hdr ∧ (IsOrderMessage hdr → length.toNat = hdr.beNat 0 2) := by
  constructor
  · intro h
    constructor
    · intro hdata hmsg
      exact ((shows_replaceOrder hdata length hmsg).mp ((h hdata).2.1 hmsg)).2
    · rintro ⟨hdata, hmsg | hmsg | hmsg | hmsg⟩
      · exact (shows_enterOrder hdata length hmsg).mp ((h hdata).1 hmsg)
      · exact ((shows_replaceOrder hdata length hmsg).mp ((h hdata).2.1 hmsg)).1
      · exact (shows_cancelOrder hdata length hmsg).mp ((h hdata).2.2.1 hmsg)
      · exact (shows_modifyOrder hdata length hmsg).mp ((h hdata).2.2.2 hmsg)
  · rintro ⟨hlegible, hlength⟩ hdata
    refine ⟨fun hmsg => ?_, fun hmsg => ?_, fun hmsg => ?_, fun hmsg => ?_⟩
    · exact (shows_enterOrder hdata length hmsg).mpr (hlength ⟨hdata, .inl hmsg⟩)
    · exact (shows_replaceOrder hdata length hmsg).mpr
        ⟨hlength ⟨hdata, .inr (.inl hmsg)⟩, hlegible hdata hmsg⟩
    · exact (shows_cancelOrder hdata length hmsg).mpr (hlength ⟨hdata, .inr (.inr (.inl hmsg))⟩)
    · exact (shows_modifyOrder hdata length hmsg).mpr (hlength ⟨hdata, .inr (.inr (.inr hmsg))⟩)

/-- **The log shows what the session acts on.** The string of a packet that fits the buffer is made of
what is shown; these are the values of an order message, its length read as the session reads it, exactly
if a `ReplaceOrder` can be read. For the length that `from_network` leaves as it is, an order message has
to have the same two bytes there as well. -/
theorem logsValues_iff (hdr : Mem) :
    (∀ buf f, outbound.branch hdr = .snprintf f → f.width hdr < sizeofBuf →
      outboundToString buf hdr =
        (outbound.shown hdr).flatMap (fun e => bytes e.1 ++ e.2) ++ bytes f.close) ∧
    (LogsValues (byteSwap16 (MsgHeader.ofMem hdr).length) hdr ↔ ReplaceLegible hdr) ∧
    (LogsValues (MsgHeader.ofMem hdr).length hdr ↔
      ReplaceLegible hdr ∧ (IsOrderMessage hdr → hdr 0 = hdr 1)) := by
  refine ⟨fun buf f hbranch hfits => toString_eq_shown hbranch hfits buf, ?_, ?_⟩
  · have hlength : (byteSwap16 (MsgHeader.ofMem hdr).length).toNat = hdr.beNat 0 2 := by
      show (byteSwap16 (hdr.u16 0)).toNat = _
      rw [byteSwap16_u16]
      exact UInt16.toNat_ofNat_of_lt' (beNat_lt hdr 0 2)
    rw [logsValues_iff_length]
    exact and_iff_left fun _ => hlength
  · have hlength : (MsgHeader.ofMem hdr).length.toNat = hdr.leNat 0 2 :=
      UInt16.toNat_ofNat_of_lt' (leNat_lt hdr 0 2)
    have h0 : (hdr 0).toNat < 256 := (hdr 0).toNat_lt
    have h1 : (hdr 1).toNat < 256 := (hdr 1).toNat_lt
    have hbytes : hdr.leNat 0 2 = hdr.beNat 0 2 ↔ hdr 0 = hdr 1 := by
      simp only [Mem.leNat, Mem.beNat, ← UInt8.toNat_inj, Nat.zero_add]
      omega
    rw [logsValues_iff_length, hlength, hbytes]

/-- A `ReplaceOrder` of `b` for `a` with a `min_qty` of 100. -/
def replaceWithMinQty : Mem :=
  Mem.write ([0, 48, 'U'.toUInt8, 'U'.toUInt8] ++ List.replicate 14 'a'.toUInt8 ++
    List.replicate 14 'b'.toUInt8 ++ [0, 0, 0, 200, 0, 0, 0, 1, 0, 0, 0, 5] ++ ['Y'.toUInt8, 'N'.toUInt8] ++
    [0, 0, 0, 100]) fun _ => 0

/-- The log shows 1677721600 for the 100, and both tokens for the first. -/
theorem not_logsValues_replaceWithMinQty :
    ¬ ∀ hdr : Mem, LogsValues (byteSwap16 (MsgHeader.ofMem hdr).length) hdr := by
  intro h
  have hshows := (h replaceWithMinQty (by decide +kernel)).2.1 (by decide +kernel)
  have hminQty := hshows (",min_qty=", print 100) (by decide +kernel)
  revert hminQty
  decide +kernel

end LogText

end Ouch

end Evtsim
