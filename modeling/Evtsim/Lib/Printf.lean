import Evtsim.Lib.Decimal
import Evtsim.Lib.Wire
import Mathlib.Algebra.Order.BigOperators.Group.List
import Mathlib.Data.List.GetD
import Mathlib.Data.Nat.Log

/-!
# `snprintf` with arguments in raw memory

A format is the literal texts and conversions of a C format string, each conversion with the place in
memory that its argument is read from. `Contained` says that all that a format shows of a packet lies in
the packet. It holds exactly when the text does not depend on what follows the packet
(`contained_iff_text_eq`), as long as no number runs into the literal behind it. `width` counts the
characters of the text and `maxWidth` bounds them.
-/

namespace Printf

open Wire Decimal

/-- The bytes of a string literal. -/
def bytes (s : String) : List UInt8 := s.toByteArray.data.toList

/-- The order of the bytes of a number. -/
inductive ByteOrder
  | big | host

/-- The number in the `k` bytes at `off`. -/
def ByteOrder.read (o : ByteOrder) (m : Mem) (off k : ℕ) : ℕ :=
  match o with
  | big => m.beNat off k
  | host => m.leNat off k

/-- A number of `k` bytes in two's complement. -/
def toSigned (k n : ℕ) : ℤ := if 2 * n < 256 ^ k then n else n - 256 ^ k

/-- The C string at `off`, of at most `n` bytes. -/
def cstr (m : Mem) : ℕ → ℕ → List UInt8
  | _, 0 => []
  | off, n + 1 => if m off = 0 then [] else m off :: cstr m (off + 1) n

/-- A digit of a hexadecimal number. -/
def hexDigit (n : UInt8) : UInt8 := if n < 10 then 48 + n else 87 + n

/-- A conversion, with what it makes of its argument. -/
inductive Conv
  /-- `%hhu`, `%hu`, `%u` or `%lu` of a number of `k` bytes -/
  | unsigned (k : ℕ) (o : ByteOrder)
  /-- `%d` or `%ld` -/
  | signed (k : ℕ) (o : ByteOrder)
  /-- `%c`, with a character that may stand for NUL -/
  | char (nul : UInt8)
  /-- `%hhx`, with one digit or two -/
  | hex (twoDigits : Bool)
  /-- `%s` of a character array of `n` bytes that is closed by a NUL behind it -/
  | string (n : ℕ)
  /-- `%s` of a string of the caller -/
  | given (s : List UInt8)

/-- `%s` of a character array as it stands in memory: nothing ends it but a NUL. -/
def Conv.openString : Conv := .string (2 ^ 64)

def Conv.text (m : Mem) (off : ℕ) : Conv → List UInt8
  | unsigned k o => print (o.read m off k)
  | signed k o => printInt (toSigned k (o.read m off k))
  | char nul => [if m off = 0 then nul else m off]
  | hex twoDigits =>
    if !twoDigits && m off < 16 then [hexDigit (m off)] else [hexDigit (m off / 16), hexDigit (m off % 16)]
  | string n => cstr m off n
  | given s => s

/-- A conversion and the literal text before it. -/
structure Piece where
  before : String
  conv : Conv
  off : ℕ

def Piece.text (m : Mem) (p : Piece) : List UInt8 := bytes p.before ++ p.conv.text m p.off

/-- A format string with its arguments. -/
structure Format where
  pieces : List Piece
  close : String

def Format.text (f : Format) (m : Mem) : List UInt8 := f.pieces.flatMap (Piece.text m) ++ bytes f.close

/-! ## What lies in the packet -/

/-- All that is shown of the packet lies in it: every byte of a number, and a string to its end. -/
def Conv.Within (bs : List UInt8) (off : ℕ) : Conv → Prop
  | unsigned k _ => ∀ i, i < k → off + i < bs.length
  | signed k _ => ∀ i, i < k → off + i < bs.length
  | char _ => off < bs.length
  | hex _ => off < bs.length
  | string n => n ≤ bs.length - off ∨ 0 ∈ (bs.drop off).take n
  | given _ => True

def Format.Contained (f : Format) (bs : List UInt8) : Prop := ∀ p ∈ f.pieces, p.conv.Within bs p.off

/-- A literal that no number runs into. -/
def isPlain (s : String) : Bool := (bytes s).head?.any fun b => !isDigit b

/-- A number is never followed by another digit. -/
def Format.Delimited (f : Format) : Prop := isPlain f.close ∧ ∀ p ∈ f.pieces, isPlain p.before

instance (f : Format) : Decidable f.Delimited := inferInstanceAs (Decidable (_ ∧ _))

section

variable {bs : List UInt8}

/-- The bytes that are written. -/
theorem write_apply_of_lt {i : ℕ} (hi : i < bs.length) (m : Mem) : Mem.write bs m i = bs[i] :=
  List.getD_eq_getElem bs (m i) hi

/-- The bytes behind what is written. -/
theorem write_apply_of_le {i : ℕ} (hi : bs.length ≤ i) (m : Mem) : Mem.write bs m i = m i :=
  List.getD_eq_default bs (m i) hi

/-- What follows the packet does not change it. -/
theorem write_congr {i : ℕ} (hi : i < bs.length) (m m' : Mem) : Mem.write bs m i = Mem.write bs m' i := by
  rw [write_apply_of_lt hi, write_apply_of_lt hi]

/-- A number depends on its own bytes only. -/
theorem beNat_congr {m m' : Mem} {off k : ℕ} (h : ∀ i, i < k → m (off + i) = m' (off + i)) :
    m.beNat off k = m'.beNat off k := by
  rw [← byteSwap_leNat, leNat_congr h, byteSwap_leNat]

/-- In either byte order a number depends on its own bytes only. -/
theorem ByteOrder.read_congr (o : ByteOrder) {m m' : Mem} {off k : ℕ}
    (h : ∀ i, i < k → m (off + i) = m' (off + i)) : o.read m off k = o.read m' off k := by
  cases o with
  | big => exact beNat_congr h
  | host => exact leNat_congr h

/-- In either byte order a number of `k` bytes is below `256 ^ k`. -/
theorem ByteOrder.read_lt (o : ByteOrder) (m : Mem) (off k : ℕ) : o.read m off k < 256 ^ k := by
  cases o with
  | big => exact beNat_lt m off k
  | host => exact leNat_lt m off k

/-- A number determines its bytes. -/
theorem ByteOrder.read_inj (o : ByteOrder) {m m' : Mem} {off k : ℕ} (h : o.read m off k = o.read m' off k) :
    ∀ i, i < k → m (off + i) = m' (off + i) := by
  induction k generalizing off with
  | zero => exact fun i hi => absurd hi (Nat.not_lt_zero i)
  | succ k ih =>
    have hsplit : (m off).toNat = (m' off).toNat ∧ o.read m (off + 1) k = o.read m' (off + 1) k := by
      have hlt : (m off).toNat < 256 := (m off).toNat_lt
      have hlt' : (m' off).toNat < 256 := (m' off).toNat_lt
      cases o with
      | big =>
        have hrest : m.beNat (off + 1) k < 256 ^ k := beNat_lt m _ k
        have hrest' : m'.beNat (off + 1) k < 256 ^ k := beNat_lt m' _ k
        simp only [ByteOrder.read, Mem.beNat] at h
        have hdiv : ∀ a r : ℕ, r < 256 ^ k → (a * 256 ^ k + r) / 256 ^ k = a := fun a r hr => by
          rw [Nat.mul_comm, Nat.mul_add_div (Nat.pow_pos (by decide)), Nat.div_eq_of_lt hr, Nat.add_zero]
        have hhead := congrArg (· / 256 ^ k) h
        simp only [hdiv _ _ hrest, hdiv _ _ hrest'] at hhead
        rw [hhead] at h
        exact ⟨hhead, Nat.add_left_cancel h⟩
      | host =>
        simp only [ByteOrder.read, Mem.leNat] at h ⊢
        omega
    intro i hi
    cases i with
    | zero => exact UInt8.toNat_inj.mp hsplit.1
    | succ i =>
      have hi' := ih hsplit.2 i (Nat.lt_of_succ_lt_succ hi)
      rwa [Nat.add_right_comm, Nat.add_assoc] at hi'

/-- Reading as a signed number loses nothing. -/
theorem toSigned_inj {k a b : ℕ} (ha : a < 256 ^ k) (hb : b < 256 ^ k) (h : toSigned k a = toSigned k b) :
    a = b := by
  have ha' : (a : ℤ) < 256 ^ k := by exact_mod_cast ha
  have hb' : (b : ℤ) < 256 ^ k := by exact_mod_cast hb
  unfold toSigned at h
  split at h <;> split at h <;> omega

/-- A string that ends in the packet is read from it alone. -/
theorem cstr_write_congr {n off : ℕ} (h : n ≤ bs.length - off ∨ 0 ∈ (bs.drop off).take n) (m m' : Mem) :
    cstr (Mem.write bs m) off n = cstr (Mem.write bs m') off n := by
  induction n generalizing off with
  | zero => rfl
  | succ n ih =>
    have hoff : off < bs.length := by
      rcases h with h | h
      · omega
      · by_contra hle
        rw [List.drop_eq_nil_of_le (Nat.not_lt.mp hle)] at h
        exact absurd h List.not_mem_nil
    simp only [cstr, write_apply_of_lt hoff]
    split
    · rfl
    · rename_i hne
      refine congrArg _ (ih (h.imp (fun h => by omega) fun h => ?_))
      rw [List.drop_eq_getElem_cons hoff, List.take_succ_cons, List.mem_cons] at h
      exact h.resolve_left fun h0 => hne h0.symm

/-- A string without an end is all of its array. -/
theorem cstr_of_ne_zero {m : Mem} {off n : ℕ} (h : ∀ i, i < n → m (off + i) ≠ 0) :
    cstr m off n = (m.at off).take n := by
  induction n generalizing off with
  | zero => rfl
  | succ n ih =>
    have hrest : ∀ i, i < n → m (off + 1 + i) ≠ 0 := by
      intro i hi
      rw [Nat.add_assoc, Nat.add_comm 1 i]
      exact h (i + 1) (Nat.succ_lt_succ hi)
    have hfirst : m off ≠ 0 := h 0 (Nat.succ_pos n)
    rw [cstr, if_neg hfirst, ih hrest, Mem.take, Mem.take, List.range_succ_eq_map,
      List.map_cons, List.map_map]
    refine congrArg _ (List.map_congr_left fun i _ => ?_)
    show m (off + 1 + i) = m (off + (i + 1))
    rw [Nat.add_assoc, Nat.add_comm 1 i]

/-- The packet with the same byte everywhere behind it. -/
def followedBy (bs : List UInt8) (c : UInt8) : Mem := Mem.write bs fun _ => c

theorem followedBy_of_lt {i : ℕ} (hi : i < bs.length) (c : UInt8) : followedBy bs c i = bs[i] :=
  write_apply_of_lt hi _

theorem followedBy_of_le {i : ℕ} (hi : bs.length ≤ i) (c : UInt8) : followedBy bs c i = c :=
  write_apply_of_le hi _

/-- With a 1 or a 2 behind the packet it reads the same only inside. -/
theorem lt_of_followedBy_eq {i : ℕ} (h : followedBy bs 1 i = followedBy bs 2 i) : i < bs.length := by
  by_contra hi
  rw [followedBy_of_le (Nat.not_lt.mp hi), followedBy_of_le (Nat.not_lt.mp hi)] at h
  exact absurd h (by decide)

/-- A string that does not end in the packet shows a byte behind it. -/
theorem cstr_followedBy_ne {n off : ℕ} (hlen : bs.length - off < n) (hopen : 0 ∉ (bs.drop off).take n)
    (r r' : List UInt8) :
    cstr (followedBy bs 1) off n ++ r ≠ cstr (followedBy bs 2) off n ++ r' := by
  have hall : ∀ c, c ≠ 0 → ∀ i, i < n → followedBy bs c (off + i) ≠ 0 := by
    intro c hc i hi
    by_cases hin : off + i < bs.length
    · rw [followedBy_of_lt hin]
      intro h0
      refine hopen (List.mem_iff_getElem.mpr ⟨i, ?_, ?_⟩)
      · rw [List.length_take, List.length_drop]
        omega
      · rw [List.getElem_take, List.getElem_drop]
        exact h0
    · rw [followedBy_of_le (Nat.not_lt.mp hin)]
      exact hc
  rw [cstr_of_ne_zero (hall 1 (by decide)), cstr_of_ne_zero (hall 2 (by decide))]
  intro h
  have hsame := (List.append_inj h (by simp only [Mem.take, List.length_map])).1
  have hlast := List.map_inj_left.mp hsame (n - 1) (List.mem_range.mpr (by omega))
  have hlt : off + (n - 1) < bs.length := lt_of_followedBy_eq hlast
  omega

/-- A text that starts with something else than a digit. -/
def EndsNumber (r : List UInt8) : Prop := ∃ c x, r = c :: x ∧ ¬ isDigit c

/-- What ends a number still does with more text behind it. -/
theorem EndsNumber.append {r : List UInt8} (h : EndsNumber r) (x : List UInt8) : EndsNumber (r ++ x) := by
  obtain ⟨c, y, rfl, hc⟩ := h
  exact ⟨c, y ++ x, rfl, hc⟩

/-- A plain text ends a number. -/
theorem endsNumber_of_isPlain {s : String} (h : isPlain s) : EndsNumber (bytes s) := by
  unfold isPlain at h
  obtain ⟨c, hc, hdigit⟩ := (Option.any_eq_true _ _).mp h
  obtain ⟨x, hx⟩ := List.head?_eq_some_iff.mp hc
  rw [Bool.not_eq_true'] at hdigit
  exact ⟨c, x, hx, Bool.eq_false_iff.mp hdigit⟩

/-- A conversion of bytes that are there does not see the memory behind them. -/
theorem Conv.text_congr {c : Conv} {off : ℕ} (h : c.Within bs off) (m m' : Mem) :
    c.text (Mem.write bs m) off = c.text (Mem.write bs m') off := by
  cases c with
  | unsigned k o => exact congrArg print (o.read_congr fun i hi => write_congr (h i hi) m m')
  | signed k o =>
    exact congrArg (printInt ∘ toSigned k) (o.read_congr fun i hi => write_congr (h i hi) m m')
  | char nul => simp only [Conv.text, write_congr h m m']
  | hex twoDigits => simp only [Conv.text, write_congr h m m']
  | string n => exact cstr_write_congr h m m'
  | given s => rfl

/-- A conversion that shows something behind the packet shows that it changes. -/
theorem Conv.within_of_text_eq {c : Conv} {off : ℕ} {r r' : List UInt8} (hr : EndsNumber r)
    (hr' : EndsNumber r')
    (h : c.text (followedBy bs 1) off ++ r = c.text (followedBy bs 2) off ++ r') : c.Within bs off := by
  obtain ⟨d, x, rfl, hd⟩ := hr
  obtain ⟨d', x', rfl, hd'⟩ := hr'
  cases c with
  | unsigned k o =>
    intro i hi
    exact lt_of_followedBy_eq (o.read_inj (print_append_inj hd hd' h) i hi)
  | signed k o =>
    intro i hi
    have hsame := toSigned_inj (o.read_lt _ _ _) (o.read_lt _ _ _) (printInt_append_inj hd hd' h)
    exact lt_of_followedBy_eq (o.read_inj hsame i hi)
  | char nul =>
    by_contra hle
    have hbehind : bs.length ≤ off := Nat.not_lt.mp hle
    simp only [Conv.text, followedBy_of_le hbehind] at h
    have hsame := (List.cons.inj h).1
    rw [if_neg (by decide), if_neg (by decide)] at hsame
    exact absurd hsame (by decide)
  | hex twoDigits =>
    by_contra hle
    have hbehind : bs.length ≤ off := Nat.not_lt.mp hle
    simp only [Conv.text, followedBy_of_le hbehind] at h
    cases twoDigits with
    | false => exact absurd (List.cons.inj h).1 (by decide)
    | true => exact absurd (List.cons.inj (List.cons.inj h).2).1 (by decide)
  | string n =>
    by_contra hopen
    rw [Conv.Within, not_or, Nat.not_le] at hopen
    exact cstr_followedBy_ne hopen.1 hopen.2 _ _ h
  | given s => trivial

end

section

variable {bs : List UInt8} {f : Format}

/-- A text that lies in the packet does not depend on what follows. -/
theorem Format.text_congr (h : f.Contained bs) (m m' : Mem) :
    f.text (Mem.write bs m) = f.text (Mem.write bs m') := by
  have hpieces : ∀ p ∈ f.pieces, Piece.text (Mem.write bs m) p = Piece.text (Mem.write bs m') p :=
    fun p hp => congrArg _ (Conv.text_congr (h p hp) m m')
  unfold Format.text
  rw [List.flatMap_congr hpieces]

/-- Any other depends on it. -/
theorem Format.contained_of_text_eq (hf : f.Delimited)
    (h : f.text (followedBy bs 1) = f.text (followedBy bs 2)) : f.Contained bs := by
  obtain ⟨pieces, close⟩ := f
  obtain ⟨hclose, hplain⟩ := hf
  unfold Format.text at h
  unfold Format.Contained
  dsimp only at hclose hplain h ⊢
  induction pieces with
  | nil => exact List.forall_mem_nil _
  | cons p ps ih =>
    have hrest := List.forall_mem_of_forall_mem_cons hplain
    -- what comes behind the conversion is the next literal
    have hends : ∀ m : Mem, EndsNumber (ps.flatMap (Piece.text m) ++ bytes close) := by
      intro m
      cases ps with
      | nil => exact endsNumber_of_isPlain hclose
      | cons q qs =>
        rw [List.flatMap_cons, Piece.text]
        exact (((endsNumber_of_isPlain (hrest q List.mem_cons_self)).append _).append _).append _
    simp only [List.flatMap_cons, Piece.text, List.append_assoc] at h
    have hconv := List.append_cancel_left h
    have hwithin := Conv.within_of_text_eq (hends _) (hends _) hconv
    rw [followedBy, followedBy, Conv.text_congr hwithin _ fun _ => 2] at hconv
    exact List.forall_mem_cons.mpr ⟨hwithin, ih (List.append_cancel_left hconv) hrest⟩

/-- A text lies in the packet exactly if it is the same whatever follows. -/
theorem Format.contained_iff_text_eq (hf : f.Delimited) :
    f.Contained bs ↔ ∀ m m', f.text (Mem.write bs m) = f.text (Mem.write bs m') :=
  ⟨fun h m m' => f.text_congr h m m', fun h => f.contained_of_text_eq hf (h _ _)⟩

end

/-! ## How long a text is -/

/-- How many decimal digits a number has. -/
def digits (n : ℕ) : ℕ := Nat.log 10 n + 1

/-- The number of characters that a conversion comes to. -/
def Conv.width (m : Mem) (off : ℕ) : Conv → ℕ
  | unsigned k o => digits (o.read m off k)
  | signed k o =>
    let z := toSigned k (o.read m off k)
    if z < 0 then digits z.natAbs + 1 else digits z.natAbs
  | char _ => 1
  | hex twoDigits => if !twoDigits && m off < 16 then 1 else 2
  | string n => (cstr m off n).length
  | given s => s.length

/-- The number of characters of the text. -/
def Format.width (f : Format) (m : Mem) : ℕ :=
  (f.pieces.map fun p => (bytes p.before).length + p.conv.width m p.off).sum + (bytes f.close).length

/-- A number of characters that a conversion does not exceed, whatever its argument, if a string of the
caller has at most `longest`. -/
def Conv.maxWidth (longest : ℕ) : Conv → ℕ
  | unsigned k _ => 3 * k + 1
  | signed k _ => 3 * k + 2
  | char _ => 1
  | hex _ => 2
  | string n => n
  | given _ => longest

def Format.maxWidth (f : Format) (longest : ℕ) : ℕ :=
  (f.pieces.map fun p => (bytes p.before).length + p.conv.maxWidth longest).sum + (bytes f.close).length

/-- No string of the caller is longer. -/
def Conv.GivenLe (longest : ℕ) : Conv → Prop
  | given s => s.length ≤ longest
  | _ => True

instance (longest : ℕ) : DecidablePred (Conv.GivenLe longest)
  | .given s => inferInstanceAs (Decidable (s.length ≤ longest))
  | .unsigned _ _ => isTrue trivial
  | .signed _ _ => isTrue trivial
  | .char _ => isTrue trivial
  | .hex _ => isTrue trivial
  | .string _ => isTrue trivial

def Format.GivenLe (f : Format) (longest : ℕ) : Prop := ∀ p ∈ f.pieces, p.conv.GivenLe longest

instance (f : Format) (longest : ℕ) : Decidable (f.GivenLe longest) :=
  inferInstanceAs (Decidable (∀ p ∈ f.pieces, p.conv.GivenLe longest))

/-- A number is printed in as many characters as it has digits. -/
theorem length_print (n : ℕ) : (print n).length = digits n := by
  have hle : ∀ k, (print n).length ≤ k + 1 ↔ digits n ≤ k + 1 := by
    intro k
    rw [length_print_le_iff (Nat.succ_pos k), digits, Nat.succ_le_iff]
    rcases Nat.eq_zero_or_pos n with rfl | hn
    · exact iff_of_true (Nat.pow_pos (by decide)) (by simp)
    · exact (Nat.log_lt_iff_lt_pow (by decide) hn.ne').symm
  have hpos := length_print_pos n
  have h1 := (hle (digits n - 1)).mpr (by unfold digits; omega)
  have h2 := (hle ((print n).length - 1)).mp (by omega)
  unfold digits at h1 h2 ⊢
  omega

/-- A number of `k` bytes has at most `3 * k + 1` digits. -/
theorem digits_le {n k : ℕ} (h : n ≤ 256 ^ k) : digits n ≤ 3 * k + 1 := by
  rw [← length_print]
  refine (length_print_le_iff (Nat.succ_pos _)).mpr ?_
  calc n ≤ 256 ^ k := h
    _ ≤ (10 ^ 3) ^ k := Nat.pow_le_pow_left (by decide) k
    _ = 10 ^ (3 * k) := (pow_mul 10 3 k).symm
    _ < 10 ^ (3 * k + 1) := Nat.pow_lt_pow_right (by decide) (Nat.lt_succ_self _)

/-- A greater number has no fewer digits. -/
theorem digits_mono {a b : ℕ} (h : a ≤ b) : digits a ≤ digits b :=
  Nat.succ_le_succ (Nat.log_mono_right h)

/-- The signed reading is no larger than what the bytes can hold. -/
theorem natAbs_toSigned_le {k n : ℕ} (h : n < 256 ^ k) : (toSigned k n).natAbs ≤ 256 ^ k := by
  have h' : (n : ℤ) < 256 ^ k := by exact_mod_cast h
  have hcast : ((256 ^ k : ℕ) : ℤ) = 256 ^ k := by exact_mod_cast rfl
  unfold toSigned
  split <;> omega

/-- A bounded C string is no longer than its bound. -/
theorem length_cstr_le (m : Mem) (off n : ℕ) : (cstr m off n).length ≤ n := by
  induction n generalizing off with
  | zero => exact Nat.le_refl 0
  | succ n ih =>
    unfold cstr
    split
    · exact Nat.zero_le _
    · exact Nat.succ_le_succ (ih (off + 1))

/-- Greater bytes make no shorter string. -/
theorem length_cstr_mono {m m' : Mem} (h : ∀ i, m i ≤ m' i) (off n : ℕ) :
    (cstr m off n).length ≤ (cstr m' off n).length := by
  induction n generalizing off with
  | zero => exact Nat.le_refl _
  | succ n ih =>
    unfold cstr
    by_cases hm : m off = 0
    · rw [if_pos hm]
      exact Nat.zero_le _
    · have hm' : m' off ≠ 0 := by
        intro h0
        have hle := h off
        rw [h0] at hle
        exact hm (UInt8.le_zero_iff.mp hle)
      rw [if_neg hm, if_neg hm']
      exact Nat.succ_le_succ (ih (off + 1))

/-- The width of a conversion is the length of its text. -/
theorem Conv.length_text (c : Conv) (m : Mem) (off : ℕ) : (c.text m off).length = c.width m off := by
  cases c with
  | unsigned k o => exact length_print _
  | signed k o =>
    simp only [Conv.text, Conv.width, printInt]
    split
    · rw [List.length_cons, length_print]
    · exact length_print _
  | char nul => rfl
  | hex twoDigits =>
    simp only [Conv.text, Conv.width]
    split <;> rfl
  | string n => rfl
  | given s => rfl

/-- The width of a conversion is at most its maximum. -/
theorem Conv.width_le {c : Conv} {longest : ℕ} (h : c.GivenLe longest) (m : Mem) (off : ℕ) :
    c.width m off ≤ c.maxWidth longest := by
  cases c with
  | unsigned k o => exact digits_le (o.read_lt m off k).le
  | signed k o =>
    have hle := digits_le (natAbs_toSigned_le (o.read_lt m off k))
    simp only [Conv.width, Conv.maxWidth]
    split <;> omega
  | char nul => exact Nat.le_refl 1
  | hex twoDigits =>
    simp only [Conv.width, Conv.maxWidth]
    split <;> omega
  | string n => exact length_cstr_le m off n
  | given s => exact h

/-- The width of a format is the length of its text. -/
theorem Format.length_text (f : Format) (m : Mem) : (f.text m).length = f.width m := by
  unfold Format.text Format.width
  rw [List.length_append, List.length_flatMap]
  refine congrArg (fun l => List.sum l + (bytes f.close).length) (List.map_congr_left fun p _ => ?_)
  rw [Piece.text, List.length_append, Conv.length_text]

/-- The width of a format is at most its maximum. -/
theorem Format.width_le {f : Format} {longest : ℕ} (h : f.GivenLe longest) (m : Mem) :
    f.width m ≤ f.maxWidth longest := by
  refine Nat.add_le_add_right (List.sum_le_sum fun p hp => ?_) _
  exact Nat.add_le_add_left (Conv.width_le (h p hp) m p.off) _

/-! ## Buffers -/

/-- Write at `pos`. -/
def put (buf : Mem) (pos : ℕ) (bs : List UInt8) : Mem :=
  fun i => if pos ≤ i then bs.getD (i - pos) (buf i) else buf i

/-- `snprintf(buf + pos, size, …)`: as much of the text as fits, its NUL, and the length of all of it. -/
def snprintf (buf : Mem) (pos size : ℕ) (text : List UInt8) : Mem × ℕ :=
  (if size = 0 then buf else put buf pos (text.take (size - 1) ++ [0]), text.length)

/-- `std::string(buf, n)` -/
def toString (buf : Mem) (n : ℕ) : List UInt8 := buf.take n

/-- `to_string` gives as many characters as it is asked for. -/
@[simp] theorem length_toString (buf : Mem) (n : ℕ) : (toString buf n).length = n := by
  rw [toString, Mem.take, List.length_map, List.length_range]

/-- Nothing is written behind the end. -/
theorem put_of_le {pos i : ℕ} {bs : List UInt8} (h : pos + bs.length ≤ i) (buf : Mem) :
    put buf pos bs i = buf i := by
  unfold put
  split
  · exact List.getD_eq_default bs (buf i) (by omega)
  · rfl

/-- `snprintf` stays in the part of the buffer that it is told. -/
theorem snprintf_of_le {pos size i : ℕ} (h : pos + size ≤ i) (buf : Mem) (text : List UInt8) :
    (snprintf buf pos size text).1 i = buf i := by
  unfold snprintf
  dsimp only
  split
  · rfl
  · refine put_of_le ?_ buf
    rw [List.length_append, List.length_take, List.length_singleton]
    omega

/-- A text that fits is read back. -/
theorem toString_snprintf {size : ℕ} {text : List UInt8} (h : text.length < size) (buf : Mem) :
    toString (snprintf buf 0 size text).1 text.length = text := by
  have hsize : size ≠ 0 := by omega
  have hall : text.take (size - 1) = text := List.take_of_length_le (by omega)
  unfold toString snprintf
  dsimp only
  rw [if_neg hsize, hall]
  refine List.ext_getElem (length_toString _ _) fun i hi hi' => ?_
  simp only [Mem.take, List.getElem_map, List.getElem_range, put, Nat.zero_le, if_true, Nat.sub_zero]
  rw [List.getD_append _ _ _ _ hi']
  exact List.getD_eq_getElem text (buf i) hi'

end Printf
