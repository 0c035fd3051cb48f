import Evtsim.Lib.Framing
import Mathlib.Data.List.Forall2

/-!
# What stands in memory

`Mem.Holds m off bs`: the bytes `bs` stand at `off`. A packed struct stands there exactly when its fields
do, one behind another (`holds_append`), and a field exactly when it is what is read there. So what a
program reads and what it was sent are the two sides of one equivalence.
-/

namespace Wire

/-- The bytes `bs` stand at `off`. -/
def Mem.Holds (m : Mem) : ℕ → List UInt8 → Prop
  | _, [] => True
  | off, b :: bs => m off = b ∧ m.Holds (off + 1) bs

variable {m : Mem} {off : ℕ}

instance decidableHolds (m : Mem) : ∀ off bs, Decidable (m.Holds off bs)
  | _, [] => isTrue trivial
  | off, b :: bs =>
    have := decidableHolds m (off + 1) bs
    inferInstanceAs (Decidable (m off = b ∧ m.Holds (off + 1) bs))

@[simp] theorem holds_nil : m.Holds off [] := trivial

@[simp] theorem holds_cons {b : UInt8} {bs : List UInt8} :
    m.Holds off (b :: bs) ↔ m off = b ∧ m.Holds (off + 1) bs := Iff.rfl

/-- Two texts behind each other stand where each of them does. -/
theorem holds_append {xs ys : List UInt8} :
    m.Holds off (xs ++ ys) ↔ m.Holds off xs ∧ m.Holds (off + xs.length) ys := by
  induction xs generalizing off with
  | nil => exact (and_iff_right trivial).symm
  | cons b xs ih =>
    rw [List.cons_append, holds_cons, holds_cons, ih, and_assoc, List.length_cons, Nat.add_assoc,
      Nat.add_comm 1]

/-- A text stands where each of its bytes does. -/
theorem holds_iff {bs : List UInt8} :
    m.Holds off bs ↔ ∀ (i : ℕ) (hi : i < bs.length), m (off + i) = bs[i] := by
  induction bs generalizing off with
  | nil => exact iff_of_true trivial fun i hi => absurd hi (Nat.not_lt_zero i)
  | cons b bs ih =>
    rw [holds_cons, ih]
    constructor
    · rintro ⟨hfirst, hrest⟩ i hi
      cases i with
      | zero => exact hfirst
      | succ i =>
        have hnext := hrest i (Nat.lt_of_succ_lt_succ hi)
        rwa [Nat.add_assoc, Nat.add_comm 1] at hnext
    · intro h
      refine ⟨h 0 (Nat.succ_pos _), fun i hi => ?_⟩
      have hplace : off + 1 + i = off + (i + 1) := by omega
      rw [hplace]
      exact h (i + 1) (Nat.succ_lt_succ hi)

/-- What has been written stands at the start. -/
theorem holds_write (bs rest : List UInt8) (m : Mem) : (Mem.write (bs ++ rest) m).Holds 0 bs := by
  rw [holds_iff]
  intro i hi
  show (bs ++ rest).getD (0 + i) _ = _
  rw [Nat.zero_add, List.getD_eq_getElem?_getD, List.getElem?_append_left hi,
    List.getElem?_eq_getElem hi, Option.getD_some]

/-- The text that the first bytes are stands at the start. -/
theorem holds_of_take {bs : List UInt8} {n : ℕ} (h : m.take n = bs) : m.Holds 0 bs := by
  subst h
  rw [holds_iff]
  intro i hi
  simp [Mem.take]

/-! ## Fields -/

/-- The characters of an array stand where the array is read. -/
theorem holds_ofFn {n : ℕ} {f : Fin n → UInt8} : m.Holds off (List.ofFn f) ↔ m.chars off n = f := by
  rw [holds_iff, funext_iff]
  constructor
  · intro h i
    have hi := h i (by rw [List.length_ofFn]; exact i.isLt)
    rwa [List.getElem_ofFn] at hi
  · intro h i hi
    rw [List.length_ofFn] at hi
    rw [List.getElem_ofFn]
    exact h ⟨i, hi⟩

/-- A byte is one of the digits. -/
theorem eq_ofNat_iff {b : UInt8} {n : ℕ} : b = UInt8.ofNat n ↔ b.toNat = n % 256 := by
  rw [← UInt8.toNat_inj, UInt8.toNat_ofNat']

/-- The first digit of a number, and the rest of it. -/
theorem digits_inj {a b c d n : ℕ} (hb : b < n) (hd : d < n) (h : a * n + b = c * n + d) :
    a = c ∧ b = d := by
  have hpos : 0 < n := Nat.lt_of_le_of_lt (Nat.zero_le b) hb
  have hfirst := (Nat.div_mod_unique hpos).mpr ⟨(Nat.add_comm b (n * a)).trans
    (congrArg (· + b) (Nat.mul_comm n a)), hb⟩
  have hsecond := (Nat.div_mod_unique hpos).mpr ⟨(Nat.add_comm d (n * c)).trans
    (congrArg (· + d) (Nat.mul_comm n c)), hd⟩
  rw [h] at hfirst
  exact ⟨hfirst.1.symm.trans hsecond.1, hfirst.2.symm.trans hsecond.2⟩

/-- A big-endian number stands where it is read as such. -/
theorem holds_beBytes {k n : ℕ} : m.Holds off (beBytes k n) ↔ m.beNat off k = n % 256 ^ k := by
  induction k generalizing off with
  | zero => exact iff_of_true trivial (Nat.mod_one n).symm
  | succ k ih =>
    have hpos : 0 < 256 ^ k := Nat.pow_pos (by decide)
    have hrest := beNat_lt m (off + 1) k
    have hlow : n % 256 ^ k < 256 ^ k := Nat.mod_lt _ hpos
    have hmod : n % 256 ^ (k + 1) = n / 256 ^ k % 256 * 256 ^ k + n % 256 ^ k := by
      rw [pow_succ, Nat.mod_mul, Nat.mul_comm, Nat.add_comm]
    rw [beBytes, holds_cons, ih, eq_ofNat_iff, hmod, Mem.beNat]
    constructor
    · rintro ⟨hfirst, hlast⟩
      rw [hfirst, hlast]
    · exact digits_inj hrest hlow

/-- A little-endian number stands where it is read as such. -/
theorem holds_leBytes {k n : ℕ} : m.Holds off (leBytes k n) ↔ m.leNat off k = n % 256 ^ k := by
  induction k generalizing off n with
  | zero => exact iff_of_true trivial (Nat.mod_one n).symm
  | succ k ih =>
    have hlt : (m off).toNat < 256 := (m off).toNat_lt
    have hmod : n % 256 ^ (k + 1) = n % 256 + 256 * (n / 256 % 256 ^ k) := by
      rw [pow_succ', Nat.mod_mul]
    rw [leBytes, holds_cons, ih, eq_ofNat_iff, hmod, Mem.leNat]
    omega

theorem holds_u32 {x : UInt32} : m.Holds off (leBytes 4 x.toNat) ↔ m.u32 off = x := by
  have hread : m.leNat off 4 < 2 ^ 32 := leNat_lt m off 4
  have hx : x.toNat < 256 ^ 4 := x.toNat_lt
  rw [holds_leBytes, Nat.mod_eq_of_lt hx, Mem.u32, ← UInt32.toNat_inj, UInt32.toNat_ofNat_of_lt' hread]

theorem holds_u64 {x : UInt64} : m.Holds off (leBytes 8 x.toNat) ↔ m.u64 off = x := by
  have hread : m.leNat off 8 < 2 ^ 64 := leNat_lt m off 8
  have hx : x.toNat < 256 ^ 8 := x.toNat_lt
  rw [holds_leBytes, Nat.mod_eq_of_lt hx, Mem.u64, ← UInt64.toNat_inj, UInt64.toNat_ofNat_of_lt' hread]

/-- A big-endian number is what is read there in the host's order, swapped. -/
theorem holds_swapped {x : UInt32} :
    m.Holds off (beBytes 4 x.toNat) ↔ byteSwap32 (m.u32 off) = x := by
  have hlt : m.leNat off 4 < 2 ^ 32 := leNat_lt m off 4
  have hread : m.beNat off 4 < 2 ^ 32 := beNat_lt m off 4
  have hx : x.toNat < 256 ^ 4 := x.toNat_lt
  rw [holds_beBytes, Nat.mod_eq_of_lt hx, byteSwap32, Mem.u32, UInt32.toNat_ofNat_of_lt' hlt,
    byteSwap_leNat, ← UInt32.toNat_inj, UInt32.toNat_ofNat_of_lt' hread]

/-- A length in front of a packet. -/
theorem holds_be16 {n : ℕ} (hn : n < 2 ^ 16) :
    m.Holds off (beBytes 2 n) ↔ (byteSwap16 (m.u16 off)).toNat = n := by
  have hread : m.beNat off 2 < 2 ^ 16 := beNat_lt m off 2
  have hn' : n < 256 ^ 2 := hn
  rw [holds_beBytes, Nat.mod_eq_of_lt hn', byteSwap16_u16, UInt16.toNat_ofNat_of_lt' hread]

theorem holds_le16 {n : ℕ} (hn : n < 2 ^ 16) : m.Holds off (leBytes 2 n) ↔ (m.u16 off).toNat = n := by
  have hread : m.leNat off 2 < 2 ^ 16 := leNat_lt m off 2
  have hn' : n < 256 ^ 2 := hn
  rw [holds_leBytes, Nat.mod_eq_of_lt hn', Mem.u16, UInt16.toNat_ofNat_of_lt' hread]

/-! ## Packets of a stream -/

/-- Where the loop over a buffer of whole packets finds a packet, there stands one that was sent. -/
theorem holds_frames {M : Type} {f : Framing.Format} {encode : M → List UInt8}
    (hwf : ∀ x, f.WellFormed (encode x)) (xs : List M) (behind : Mem) :
    List.Forall₂ (fun (p : Mem × ℕ) x => p.1.Holds 0 (encode x))
      (Framing.frames f (Mem.write (xs.flatMap encode) behind) (xs.flatMap encode).length 0) xs := by
  have hall : ∀ p ∈ xs.map encode, f.WellFormed p := by
    intro p hp
    obtain ⟨x, -, rfl⟩ := List.mem_map.mp hp
    exact hwf x
  have hpackets := Framing.packets_of_wellFormed hall
    (Mem.at_zero (Mem.write (xs.map encode).flatten behind))
  rw [Nat.zero_add, ← List.flatMap_def] at hpackets
  have hmap : List.Forall₂ Eq
      ((Framing.frames f (Mem.write (xs.flatMap encode) behind) (xs.flatMap encode).length 0).map
        fun p => p.1.take p.2) (xs.map encode) := by
    rw [List.forall₂_eq_eq_eq]
    exact hpackets
  rw [List.forall₂_map_left_iff, List.forall₂_map_right_iff] at hmap
  exact hmap.imp fun _ _ h => holds_of_take h

end Wire
