import Mathlib.Data.List.OfFn
import Mathlib.Tactic.Ring

/-!
# Raw memory, byte orders and fixed character arrays

`Mem` is memory from some pointer on, one byte an offset; reading a packed struct through a cast
pointer is reading its fields at their offsets. Numbers are read in the order of the host
(little-endian), and `byteSwap` turns such a reading into the big-endian one (`byteSwap_leNat`).
`strncpy` and `strcpy` are the C functions on arrays of a fixed size.
-/

namespace Wire

/-- Memory from a pointer on. -/
abbrev Mem := ℕ → UInt8

/-- The memory that starts with `bs` and goes on with `m`. -/
def Mem.write (bs : List UInt8) (m : Mem) : Mem := fun i => bs.getD i (m i)

/-- The memory `pos` bytes further on. -/
def Mem.at (m : Mem) (pos : ℕ) : Mem := fun i => m (pos + i)

/-- The first `n` bytes. -/
def Mem.take (m : Mem) (n : ℕ) : List UInt8 := (List.range n).map m

/-- The character array of `n` bytes at `off`. -/
def Mem.chars (m : Mem) (off n : ℕ) : Fin n → UInt8 := fun i => m (off + i)

/-- The little-endian number in the `k` bytes at `off`. -/
def Mem.leNat (m : Mem) : ℕ → ℕ → ℕ
  | _, 0 => 0
  | off, k + 1 => (m off).toNat + 256 * m.leNat (off + 1) k

/-- The big-endian number in the `k` bytes at `off`. -/
def Mem.beNat (m : Mem) : ℕ → ℕ → ℕ
  | _, 0 => 0
  | off, k + 1 => (m off).toNat * 256 ^ k + m.beNat (off + 1) k

/-- Reverse the `k` low bytes of a number. -/
def byteSwap : ℕ → ℕ → ℕ
  | 0, _ => 0
  | k + 1, n => n % 256 * 256 ^ k + byteSwap k (n / 256)

def Mem.u16 (m : Mem) (off : ℕ) : UInt16 := UInt16.ofNat (m.leNat off 2)
def Mem.u32 (m : Mem) (off : ℕ) : UInt32 := UInt32.ofNat (m.leNat off 4)
def Mem.u64 (m : Mem) (off : ℕ) : UInt64 := UInt64.ofNat (m.leNat off 8)

def byteSwap16 (x : UInt16) : UInt16 := UInt16.ofNat (byteSwap 2 x.toNat)
def byteSwap32 (x : UInt32) : UInt32 := UInt32.ofNat (byteSwap 4 x.toNat)

/-- Reversing the bytes of a little-endian reading gives the big-endian one. -/
theorem byteSwap_leNat (m : Mem) (off k : ℕ) : byteSwap k (m.leNat off k) = m.beNat off k := by
  induction k generalizing off with
  | zero => rfl
  | succ k ih =>
    have hlt : (m off).toNat < 256 := (m off).toNat_lt
    have hmod : m.leNat off (k + 1) % 256 = (m off).toNat := by
      simp only [Mem.leNat]; omega
    have hdiv : m.leNat off (k + 1) / 256 = m.leNat (off + 1) k := by
      simp only [Mem.leNat]; omega
    simp only [byteSwap, hmod, hdiv, ih, Mem.beNat]

/-- A little-endian number of `k` bytes is below `256 ^ k`. -/
theorem leNat_lt (m : Mem) (off k : ℕ) : m.leNat off k < 256 ^ k := by
  induction k generalizing off with
  | zero => simp [Mem.leNat]
  | succ k ih =>
    have hlt : (m off).toNat < 256 := (m off).toNat_lt
    have := ih (off + 1)
    simp only [Mem.leNat, pow_succ]
    omega

/-- A big-endian number of `k` bytes is below `256 ^ k`. -/
theorem beNat_lt (m : Mem) (off k : ℕ) : m.beNat off k < 256 ^ k := by
  induction k generalizing off with
  | zero => exact Nat.one_pos
  | succ k ih =>
    have hlt : (m off).toNat + 1 ≤ 256 := (m off).toNat_lt
    have hrest := ih (off + 1)
    calc m.beNat off (k + 1) = (m off).toNat * 256 ^ k + m.beNat (off + 1) k := rfl
      _ < (m off).toNat * 256 ^ k + 256 ^ k := Nat.add_lt_add_left hrest _
      _ = ((m off).toNat + 1) * 256 ^ k := (Nat.succ_mul _ _).symm
      _ ≤ 256 * 256 ^ k := Nat.mul_le_mul_right _ hlt
      _ = 256 ^ (k + 1) := (pow_succ' 256 k).symm

/-- Greater bytes make a greater number. -/
theorem leNat_mono {m m' : Mem} (h : ∀ i, m i ≤ m' i) (off k : ℕ) : m.leNat off k ≤ m'.leNat off k := by
  induction k generalizing off with
  | zero => exact Nat.le_refl _
  | succ k ih =>
    have hfirst : (m off).toNat ≤ (m' off).toNat := h off
    have hrest := ih (off + 1)
    simp only [Mem.leNat]
    omega

/-- The host's 16-bit reading, byte-swapped, is the big-endian number at that place. -/
theorem byteSwap16_u16 (m : Mem) (off : ℕ) :
    byteSwap16 (m.u16 off) = UInt16.ofNat (m.beNat off 2) := by
  have hlt : m.leNat off 2 < 2 ^ 16 := leNat_lt m off 2
  rw [byteSwap16, Mem.u16, UInt16.toNat_ofNat_of_lt' hlt, byteSwap_leNat]

/-- A reading depends on the bytes it covers only. -/
theorem leNat_congr {m m' : Mem} {off k : ℕ} (h : ∀ i, i < k → m (off + i) = m' (off + i)) :
    m.leNat off k = m'.leNat off k := by
  induction k generalizing off with
  | zero => rfl
  | succ k ih =>
    have h0 : m off = m' off := h 0 (Nat.succ_pos k)
    have hrest : m.leNat (off + 1) k = m'.leNat (off + 1) k := by
      refine ih fun i hi => ?_
      rw [Nat.add_assoc, Nat.add_comm 1 i]
      exact h (i + 1) (Nat.succ_lt_succ hi)
    simp only [Mem.leNat, h0, hrest]

/-! ## Memories with the same start -/

/-- Two memories have the same first `n` bytes. -/
def Mem.Agree (n : ℕ) (m m' : Mem) : Prop := ∀ i, i < n → m' i = m i

section

variable {m m' : Mem} {n : ℕ}

theorem Mem.Agree.refl (n : ℕ) (m : Mem) : Mem.Agree n m m := fun _ _ => rfl

theorem Mem.Agree.symm (h : Mem.Agree n m m') : Mem.Agree n m' m := fun i hi => (h i hi).symm

/-- Memories that agree on more bytes agree on fewer. -/
theorem Mem.Agree.mono {k : ℕ} (h : Mem.Agree n m m') (hk : k ≤ n) : Mem.Agree k m m' :=
  fun i hi => h i (hi.trans_le hk)

/-- A byte behind the common start may be any. -/
theorem Mem.agree_update {k : ℕ} (hk : n ≤ k) (m : Mem) (b : UInt8) :
    Mem.Agree n m (Function.update m k b) := by
  intro i hi
  have hne : i ≠ k := by omega
  exact Function.update_of_ne hne b m

/-- Arrays inside the bytes that agree are the same. -/
theorem Mem.Agree.chars (h : Mem.Agree n m m') {off k : ℕ} (hk : off + k ≤ n) :
    m'.chars off k = m.chars off k := by
  funext i
  exact h (off + i) (by omega)

/-- Numbers inside the bytes that agree are the same. -/
theorem Mem.Agree.leNat (h : Mem.Agree n m m') {off k : ℕ} (hk : off + k ≤ n) :
    m'.leNat off k = m.leNat off k :=
  leNat_congr fun i hi => h (off + i) (by omega)

theorem Mem.Agree.u16 (h : Mem.Agree n m m') {off : ℕ} (hk : off + 2 ≤ n) :
    m'.u16 off = m.u16 off := congrArg UInt16.ofNat (h.leNat hk)

theorem Mem.Agree.u32 (h : Mem.Agree n m m') {off : ℕ} (hk : off + 4 ≤ n) :
    m'.u32 off = m.u32 off := congrArg UInt32.ofNat (h.leNat hk)

theorem Mem.Agree.u64 (h : Mem.Agree n m m') {off : ℕ} (hk : off + 8 ≤ n) :
    m'.u64 off = m.u64 off := congrArg UInt64.ofNat (h.leNat hk)

end

/-! ## Writing numbers -/

/-- The low `k` bytes of a number, the least significant first. -/
def leBytes : ℕ → ℕ → List UInt8
  | 0, _ => []
  | k + 1, n => UInt8.ofNat n :: leBytes k (n / 256)

/-- The low `k` bytes of a number, the most significant first. -/
def beBytes : ℕ → ℕ → List UInt8
  | 0, _ => []
  | k + 1, n => UInt8.ofNat (n / 256 ^ k) :: beBytes k n

@[simp] theorem length_leBytes (k n : ℕ) : (leBytes k n).length = k := by
  induction k generalizing n with
  | zero => rfl
  | succ k ih => rw [leBytes, List.length_cons, ih]

@[simp] theorem length_beBytes (k n : ℕ) : (beBytes k n).length = k := by
  induction k with
  | zero => rfl
  | succ k ih => rw [beBytes, List.length_cons, ih]

/-- The byte written behind `pre`. -/
theorem Mem.write_append_cons (pre : List UInt8) (b : UInt8) (bs : List UInt8) (m : Mem) :
    Mem.write (pre ++ b :: bs) m pre.length = b := by
  show (pre ++ b :: bs).getD pre.length _ = b
  simp

/-- A number written in little-endian order is read back. -/
theorem leNat_write (pre : List UInt8) (k n : ℕ) (bs : List UInt8) (m : Mem) :
    (Mem.write (pre ++ (leBytes k n ++ bs)) m).leNat pre.length k = n % 256 ^ k := by
  induction k generalizing pre n with
  | zero => exact (Nat.mod_one n).symm
  | succ k ih =>
    have hrest := ih (pre ++ [UInt8.ofNat n]) (n / 256)
    rw [List.append_assoc, List.singleton_append, List.length_append, List.length_singleton] at hrest
    have hmod : n % 256 ^ (k + 1) = n % 256 + 256 * (n / 256 % 256 ^ k) := by
      rw [pow_succ', Nat.mod_mul]
    rw [leBytes, List.cons_append, Mem.leNat, Mem.write_append_cons, hrest, hmod]
    rfl

/-- A number written in big-endian order is read back. -/
theorem beNat_write (pre : List UInt8) (k n : ℕ) (bs : List UInt8) (m : Mem) :
    (Mem.write (pre ++ (beBytes k n ++ bs)) m).beNat pre.length k = n % 256 ^ k := by
  induction k generalizing pre with
  | zero => exact (Nat.mod_one n).symm
  | succ k ih =>
    have hrest := ih (pre ++ [UInt8.ofNat (n / 256 ^ k)])
    rw [List.append_assoc, List.singleton_append, List.length_append, List.length_singleton] at hrest
    have hmod : n % 256 ^ (k + 1) = n / 256 ^ k % 256 * 256 ^ k + n % 256 ^ k := by
      rw [pow_succ, Nat.mod_mul, Nat.mul_comm, Nat.add_comm]
    rw [beBytes, List.cons_append, Mem.beNat, Mem.write_append_cons, hrest, hmod]
    rfl

/-- A character array written behind `pre` is read back. -/
theorem chars_write (pre : List UInt8) {n : ℕ} (f : Fin n → UInt8) (bs : List UInt8) (m : Mem) :
    (Mem.write (pre ++ (List.ofFn f ++ bs)) m).chars pre.length n = f := by
  funext i
  show (pre ++ (List.ofFn f ++ bs)).getD (pre.length + i) _ = f i
  rw [List.getD_eq_getElem?_getD, List.getElem?_append_right (Nat.le_add_right _ _),
    Nat.add_sub_cancel_left, List.getElem?_append_left (by rw [List.length_ofFn]; exact i.isLt),
    List.getElem?_ofFn, dif_pos i.isLt]
  rfl

/-! ## Numbers cut to 32 bits -/

/-- A number that fits is not changed. -/
theorem toNat_ofInt {n : ℤ} (h0 : 0 ≤ n) (h : n < 2 ^ 32) : ((UInt32.ofInt n).toNat : ℤ) = n := by
  unfold UInt32.ofInt
  have hmod : n % 2 ^ 32 = n := Int.emod_eq_of_lt h0 h
  rw [hmod, UInt32.toNat_ofNat_of_lt' (by show n.toNat < 2 ^ 32; omega)]
  exact Int.toNat_of_nonneg h0

/-- An unsigned number survives the way through `ℤ`. -/
theorem ofInt_toNat (n : UInt32) : UInt32.ofInt (n.toNat : ℤ) = n := by
  apply UInt32.toNat_inj.mp
  have hn : (n.toNat : ℤ) < 2 ^ 32 := by exact_mod_cast n.toNat_lt
  exact_mod_cast toNat_ofInt (Int.natCast_nonneg _) hn

/-- A number is cut down, never up. -/
theorem toNat_ofInt_le {n : ℤ} (h0 : 0 ≤ n) : ((UInt32.ofInt n).toNat : ℤ) ≤ n := by
  unfold UInt32.ofInt
  rw [UInt32.toNat_ofNat']
  omega

/-- The sign of a number cut to a signed 32-bit one is decided by its residue. -/
theorem int32_ofInt_le_zero {n : ℤ} :
    Int32.ofInt n ≤ 0 ↔ n % 2 ^ 32 = 0 ∨ 2 ^ 31 ≤ n % 2 ^ 32 := by
  rw [Int32.le_iff_toInt_le, Int32.toInt_ofInt, Int.bmod_def]
  simp only [Int32.toInt_zero, Int32.size]
  split <;> omega

/-! ## Character arrays -/

/-- `strncpy` between arrays of one size: up to the first NUL, zeros from there on. -/
def strncpy {n : ℕ} (src : Fin n → UInt8) : Fin n → UInt8 :=
  fun i => if ∃ j, j < i ∧ src j = 0 then 0 else src i

/-- `strcpy` of a C string into a larger array: the text, its NUL, then what the array held. -/
def strcpy {n : ℕ} (dst : Fin n → UInt8) (text : List UInt8) : Fin n → UInt8 :=
  fun i => (text ++ [0]).getD i (dst i)

/-- Copying a copy changes nothing. -/
@[simp] theorem strncpy_strncpy {n : ℕ} (src : Fin n → UInt8) :
    strncpy (strncpy src) = strncpy src := by
  funext i
  by_cases h : ∃ j, j < i ∧ src j = 0
  · have h0 : strncpy src i = 0 := if_pos h
    simp only [strncpy] at h0 ⊢
    split <;> simp_all
  · have hcopy : ∀ j, j < i → strncpy src j = src j := fun j hj =>
      if_neg fun ⟨k, hk, h0⟩ => h ⟨k, hk.trans hj, h0⟩
    have h' : ¬ ∃ j, j < i ∧ strncpy src j = 0 := by
      rintro ⟨j, hj, h0⟩
      exact h ⟨j, hj, (hcopy j hj).symm.trans h0⟩
    have hi : strncpy src i = src i := if_neg h
    rw [strncpy, if_neg h']

end Wire
