import Mathlib.Algebra.Ring.Nat
import Mathlib.Data.Int.Notation
import Mathlib.Data.List.Basic

/-!
# Decimal numbers as text

Numbers written in decimal as ASCII bytes, and read back. The text of a number is not empty, has digits
only and at most `k` of them exactly below `10 ^ k` (`length_print_le_iff`). Whatever follows it, as long
as it does not start with another digit, the number can be told from it (`print_append_inj`).
-/

namespace Decimal

/-- The characters `0` to `9`. -/
def isDigit (b : UInt8) : Bool := 48 ≤ b && b ≤ 57

/-- A number in decimal. -/
def print (n : ℕ) : List UInt8 := (Nat.toDigits 10 n).map Char.toUInt8

/-- The number that digits spell. -/
def read (bs : List UInt8) : ℕ := bs.foldl (fun n b => 10 * n + (b.toNat - 48)) 0

/-- A number with its sign in decimal. -/
def printInt (z : ℤ) : List UInt8 := if z < 0 then 45 :: print z.natAbs else print z.natAbs

/-- The byte of a digit has its value. -/
theorem toNat_toUInt8 {c : Char} (hc : c.isDigit) : c.toUInt8.toNat = c.toNat := by
  have hle : c.toNat ≤ 57 := (Char.isDigit_iff_toNat.mp hc).2
  show c.toNat % 2 ^ 8 = c.toNat
  omega

/-- The byte of a digit is a digit. -/
theorem isDigit_toUInt8 {c : Char} (hc : c.isDigit) : isDigit c.toUInt8 := by
  obtain ⟨hge, hle⟩ : 48 ≤ c.toNat ∧ c.toNat ≤ 57 := Char.isDigit_iff_toNat.mp hc
  unfold isDigit
  rw [Bool.and_eq_true, decide_eq_true_eq, decide_eq_true_eq, UInt8.le_iff_toNat_le,
    UInt8.le_iff_toNat_le, toNat_toUInt8 hc]
  exact ⟨hge, hle⟩

/-- A number is printed in digits. -/
theorem isDigit_of_mem_print {n : ℕ} {b : UInt8} (hb : b ∈ print n) : isDigit b := by
  obtain ⟨c, hc, rfl⟩ := List.mem_map.mp hb
  exact isDigit_toUInt8 (Nat.isDigit_of_mem_toDigits (by decide) (by decide) hc)

/-- Every number, zero too, has a digit. -/
theorem length_print_pos (n : ℕ) : 0 < (print n).length := by
  rw [print, List.length_map]
  exact Nat.length_toDigits_pos

/-- A number has at most `k` digits if it is below `10 ^ k`, and not otherwise. -/
theorem length_print_le_iff {n k : ℕ} (hk : 0 < k) : (print n).length ≤ k ↔ n < 10 ^ k := by
  rw [print, List.length_map]
  exact Nat.length_toDigits_le_iff (by decide) hk

/-- What is printed is read back. -/
theorem read_print (n : ℕ) : read (print n) = n := by
  have hfold : ∀ (cs : List Char) (init : ℕ), (∀ c ∈ cs, c.isDigit) →
      (cs.map Char.toUInt8).foldl (fun n b => 10 * n + (b.toNat - 48)) init =
        Nat.ofDigitChars 10 cs init := by
    intro cs
    induction cs with
    | nil =>
      intro init _
      rw [Nat.ofDigitChars_nil]
      rfl
    | cons c cs ih =>
      intro init hcs
      rw [List.map_cons, List.foldl_cons, toNat_toUInt8 (hcs c List.mem_cons_self),
        ih _ fun d hd => hcs d (List.mem_cons_of_mem c hd), Nat.ofDigitChars_cons]
      rfl
  rw [read, print, hfold _ _ fun c hc => Nat.isDigit_of_mem_toDigits (by decide) (by decide) hc]
  exact Nat.ofDigitChars_ten_toDigits

/-- Different numbers are printed differently. -/
theorem print_injective : Function.Injective print := fun a b h => by
  rw [← read_print a, h, read_print]

/-- Digits end where something else begins. -/
theorem takeWhile_append {l x : List UInt8} {c : UInt8} (hl : ∀ b ∈ l, isDigit b) (hc : ¬ isDigit c) :
    (l ++ c :: x).takeWhile isDigit = l := by
  rw [List.takeWhile_append_of_pos hl, List.takeWhile_cons_of_neg hc, List.append_nil]

/-- A number can be told from its text and whatever follows it. -/
theorem print_append_inj {a b : ℕ} {c d : UInt8} {x y : List UInt8} (hc : ¬ isDigit c)
    (hd : ¬ isDigit d) (h : print a ++ c :: x = print b ++ d :: y) : a = b := by
  apply print_injective
  rw [← takeWhile_append (fun _ hb => isDigit_of_mem_print hb) hc, h,
    takeWhile_append (fun _ hb => isDigit_of_mem_print hb) hd]

/-- So can a number with its sign. -/
theorem printInt_append_inj {a b : ℤ} {c d : UInt8} {x y : List UInt8} (hc : ¬ isDigit c)
    (hd : ¬ isDigit d) (h : printInt a ++ c :: x = printInt b ++ d :: y) : a = b := by
  -- the sign is told from the first character
  have hsign : ∀ (n m : ℕ) (x y : List UInt8), 45 :: print n ++ x ≠ print m ++ y := by
    intro n m x y heq
    rcases hm : print m with _ | ⟨e, l⟩
    · have hpos := length_print_pos m
      rw [hm] at hpos
      exact absurd hpos (Nat.lt_irrefl 0)
    · rw [hm] at heq
      have he : isDigit e := isDigit_of_mem_print (n := m) (hm ▸ List.mem_cons_self)
      rw [← (List.cons.inj heq).1] at he
      exact absurd he (by decide)
  unfold printInt at h
  split at h <;> split at h
  · have := print_append_inj hc hd (List.cons.inj h).2
    omega
  · exact absurd h (hsign _ _ _ _)
  · exact absurd h.symm (hsign _ _ _ _)
  · have := print_append_inj hc hd h
    omega

end Decimal
