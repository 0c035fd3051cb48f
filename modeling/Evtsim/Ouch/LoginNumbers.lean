import Evtsim.Lib.Decimal
import Evtsim.Ouch.Session
import Mathlib.Data.List.GetD

/-!
# The numbers of a login

`construct_login_accepted` prints two 32-bit numbers at the right end of fields of spaces, 10 and 20
bytes long. A client that sends the second field back as `requested_seq_num` has it matched against
spaces and digits. `loginNumbers`: both fit, both are read back, and what is sent back matches.
-/

namespace Evtsim

open Wire Ouch Session

namespace OuchSession

variable {W : Type}

/-- The number behind the spaces of a field. -/
def fieldNumber {n : ℕ} (f : Fin n → UInt8) : ℕ :=
  Decimal.read ((List.ofFn f).dropWhile fun b => b == ' '.toUInt8)

/-- Spaces and digits, with all spaces to the left. -/
structure LeftPadded {n : ℕ} (f : Fin n → UInt8) : Prop where
  bytes : ∀ i, f i = ' '.toUInt8 ∨ Decimal.isDigit (f i)
  left : ∀ i j, i ≤ j → f j = ' '.toUInt8 → f i = ' '.toUInt8

/-- A 32-bit number has ten digits at most. -/
theorem length_decimal_le (n : UInt32) : (decimal n).length ≤ 10 :=
  (Decimal.length_print_le_iff (by decide)).mpr (n.toNat_lt.trans (by decide))

/-- A number is printed in digits. -/
theorem isDigit_of_mem_decimal {n : UInt32} {b : UInt8} (hb : b ∈ decimal n) : Decimal.isDigit b :=
  Decimal.isDigit_of_mem_print hb

/-! ## Padding -/

section

variable {n : ℕ} {text : List UInt8}

/-- A field is its spaces and its text. -/
theorem ofFn_padLeft (h : text.length ≤ n) :
    List.ofFn (padLeft text : Fin n → UInt8) =
      List.replicate (n - text.length) ' '.toUInt8 ++ text := by
  have hlength : (List.replicate (n - text.length) ' '.toUInt8 ++ text).length = n := by
    rw [List.length_append, List.length_replicate]
    omega
  apply List.ext_getElem
  · rw [List.length_ofFn, hlength]
  · intro i hi hi'
    rw [List.getElem_ofFn]
    exact List.getD_eq_getElem _ _ hi'

/-- The padding stands in front. -/
theorem padLeft_of_lt {i : Fin n} (hi : (i : ℕ) < n - text.length) :
    padLeft text i = ' '.toUInt8 := by
  unfold padLeft
  rw [List.getD_append _ _ _ _ (by rwa [List.length_replicate]), List.getD_replicate _ hi]

/-- The text stands behind the padding. -/
theorem padLeft_of_ge (h : text.length ≤ n) {i : Fin n} (hi : n - text.length ≤ i) :
    padLeft text i ∈ text := by
  unfold padLeft
  rw [List.getD_append_right _ _ _ _ (by rwa [List.length_replicate]), List.length_replicate]
  have hlt : (i : ℕ) - (n - text.length) < text.length := by omega
  rw [List.getD_eq_getElem _ _ hlt]
  exact List.getElem_mem hlt

/-- A text of digits that fits is padded with blanks in front. -/
theorem leftPadded_padLeft (h : text.length ≤ n) (htext : ∀ b ∈ text, Decimal.isDigit b) :
    LeftPadded (padLeft text : Fin n → UInt8) where
  bytes i := by
    by_cases hi : (i : ℕ) < n - text.length
    · exact .inl (padLeft_of_lt hi)
    · exact .inr (htext _ (padLeft_of_ge h (Nat.le_of_not_lt hi)))
  left i j hij hj := by
    apply padLeft_of_lt
    by_contra hi
    -- a digit is no space
    have hdigit := htext _ (padLeft_of_ge h (i := j) (by omega))
    rw [hj] at hdigit
    exact absurd hdigit (by decide)

/-- Dropping the padding of digits by any test that spaces pass and digits do not. -/
theorem dropWhile_padLeft (h : text.length ≤ n) {p : UInt8 → Bool} (hspace : p ' '.toUInt8)
    (htext : ∀ b ∈ text, ¬ p b) :
    (List.ofFn (padLeft text : Fin n → UInt8)).dropWhile p = text := by
  have hdrop : text.dropWhile p = text := by
    cases text with
    | nil => rfl
    | cons b bs => exact List.dropWhile_cons_of_neg (htext b List.mem_cons_self)
  rw [ofFn_padLeft h, List.dropWhile_append_of_pos, hdrop]
  intro b hb
  rw [List.eq_of_mem_replicate hb]
  exact hspace

end

/-- The number of a field is the one that was printed into it. -/
theorem fieldNumber_padLeft {n : ℕ} {x : UInt32} (h : (decimal x).length ≤ n) :
    fieldNumber (padLeft (decimal x) : Fin n → UInt8) = x.toNat := by
  unfold fieldNumber
  rw [dropWhile_padLeft h (by decide)]
  · exact Decimal.read_print x.toNat
  · intro b hb heq
    have hdigit := isDigit_of_mem_decimal hb
    rw [eq_of_beq heq] at hdigit
    exact absurd hdigit (by decide)

/-- No digit is blank. -/
theorem not_blank_of_isDigit {b : UInt8} (hb : Decimal.isDigit b) :
    ¬ (b == 32 || (9 ≤ b && b ≤ 13)) = true := by
  intro hblank
  simp only [Decimal.isDigit, Bool.and_eq_true, decide_eq_true_eq, UInt8.le_iff_toNat_le] at hb
  simp only [Bool.or_eq_true, beq_iff_eq, Bool.and_eq_true, decide_eq_true_eq,
    UInt8.le_iff_toNat_le] at hblank
  rcases hblank with rfl | ⟨-, hle⟩
  · exact absurd hb.1 (by decide)
  · have hge : 48 ≤ b.toNat := hb.1
    have hle : b.toNat ≤ 13 := hle
    omega

/-- A padded number is what the regular expression of `validate_login_request` asks for. -/
theorem matchesSeqNum_padLeft {n : ℕ} {x : UInt32} (h : (decimal x).length ≤ n) :
    matchesSeqNum (List.ofFn (padLeft (decimal x) : Fin n → UInt8)) = true := by
  unfold matchesSeqNum
  simp only [Bool.and_eq_true]
  rw [dropWhile_padLeft h (by decide) fun b hb => not_blank_of_isDigit (isDigit_of_mem_decimal hb)]
  refine ⟨?_, List.all_eq_true.mpr fun b hb => isDigit_of_mem_decimal hb⟩
  have hpos : 0 < (decimal x).length := Decimal.length_print_pos x.toNat
  rw [bne_iff_ne]
  exact List.ne_nil_of_length_pos hpos

/-- **Login sequence numbers round-trip.** Both numbers fit their fields, which are spaces and digits
with the spaces to the left and read back as the numbers, and a login request that sends the second
field back is valid if its length is. -/
theorem loginNumbers (s : OuchSession W) (sessionNum seqNum : UInt32) :
    (decimal sessionNum).length ≤ 10 ∧ (decimal seqNum).length ≤ 20 ∧
    ∃ m : LoginAccepted, (constructLoginAccepted s sessionNum seqNum).pendingOutMessages =
        s.pendingOutMessages ++ [.loginAccepted m] ∧
      LeftPadded m.session ∧ LeftPadded m.seqNum ∧
      fieldNumber m.session = sessionNum.toNat ∧ fieldNumber m.seqNum = seqNum.toNat ∧
      matchesSeqNum (List.ofFn m.seqNum) = true ∧
      ∀ p : Mem, (LoginRequest.ofMem p).requestedSeqNum = m.seqNum →
        validateLoginRequest p = hasLength p sizeofLoginRequest := by
  have hsession := length_decimal_le sessionNum
  have hseq : (decimal seqNum).length ≤ 20 := (length_decimal_le seqNum).trans (by decide)
  have hmatch := matchesSeqNum_padLeft (n := 20) hseq
  refine ⟨hsession, hseq, _, rfl, ?_, ?_, ?_, ?_, hmatch, ?_⟩
  · exact leftPadded_padLeft hsession fun b hb => isDigit_of_mem_decimal hb
  · exact leftPadded_padLeft hseq fun b hb => isDigit_of_mem_decimal hb
  · exact fieldNumber_padLeft hsession
  · exact fieldNumber_padLeft hseq
  · intro p hp
    unfold validateLoginRequest
    rw [hp, hmatch, Bool.and_true]

end OuchSession

end Evtsim
