import Evtsim.Lib.Machine
import Evtsim.Lib.Wire
import Mathlib.Data.List.Induction

/-!
# Reading packed messages

A `Reader` takes values off the front of some bytes, or fails. `Reads r bs a` says that it takes `a` from
the bytes `bs`, leaves what follows them, and fails as long as one of them is missing; it is proved for a
message from its fields one by one (`Reads.field`).

A `Feed` reads a stream that arrives in chunks, and keeps what it cannot read yet. `readUpTo_readChunks`
says that it has read just the messages that have arrived in full, wherever the stream was cut.
-/

namespace Wire

/-- What takes a value off the front of some bytes. -/
abbrev Reader := StateT (List UInt8) Option

variable {α β : Type}

/-- `r` takes `a` from `bs`, whatever follows, and nothing from less. -/
structure Reads (r : Reader α) (bs : List UInt8) (a : α) : Prop where
  run : ∀ rest, r.run (bs ++ rest) = some (a, rest)
  short : ∀ pre, pre <+: bs → pre ≠ bs → r.run pre = none

/-- A part of two pieces is missing something of the first, or goes on behind it. -/
theorem part_append {γ : Type} {pre xs ys : List γ} (h : pre <+: xs ++ ys) :
    pre <+: xs ∧ pre ≠ xs ∨ ∃ behind, pre = xs ++ behind ∧ behind <+: ys := by
  rcases List.prefix_or_prefix_of_prefix h (List.prefix_append xs ys) with hpre | ⟨behind, rfl⟩
  · by_cases hall : pre = xs
    · exact .inr ⟨[], by rw [hall, List.append_nil], List.nil_prefix⟩
    · exact .inl ⟨hpre, hall⟩
  · exact .inr ⟨behind, rfl, (List.prefix_append_right_inj xs).mp h⟩

theorem Reads.pure (a : α) : Reads (Pure.pure a) [] a :=
  ⟨fun _ => rfl, fun _ hpre hne => absurd (List.prefix_nil.mp hpre) hne⟩

/-- Readers behind each other read texts behind each other. -/
theorem Reads.bind {r : Reader α} {f : α → Reader β} {bs bs' : List UInt8} {a : α} {b : β}
    (h : Reads r bs a) (h' : Reads (f a) bs' b) : Reads (r >>= f) (bs ++ bs') b := by
  refine ⟨fun rest => ?_, fun pre hpre hne => ?_⟩
  · rw [StateT.run_bind, List.append_assoc, h.run]
    exact h'.run rest
  · rw [StateT.run_bind]
    rcases part_append hpre with ⟨hfirst, hpart⟩ | ⟨behind, rfl, hbehind⟩
    · rw [h.short pre hfirst hpart]
      rfl
    · rw [h.run]
      exact h'.short behind hbehind fun heq => hne (by rw [heq])

/-- One field, and the ones behind it. -/
theorem Reads.field {r : Reader α} {f : α → Reader β} {bs : List UInt8} {fields : List (List UInt8)}
    {a : α} {b : β} (h : Reads r bs a) (h' : Reads (f a) fields.flatten b) :
    Reads (r >>= f) (bs :: fields).flatten b :=
  h.bind h'

/-- What is read may be mapped. -/
theorem Reads.map {r : Reader α} {bs : List UInt8} {a : α} (h : Reads r bs a) (f : α → β) :
    Reads (f <$> r) bs (f a) := by
  refine ⟨fun rest => ?_, fun pre hpre hne => ?_⟩
  · rw [StateT.run_map, h.run]
    rfl
  · rw [StateT.run_map, h.short pre hpre hne]
    rfl

/-! ## Fields -/

/-- A field of `k` bytes, read from memory that starts with it. -/
def fixed (k : ℕ) (get : Mem → α) : Reader α := fun bs =>
  if k ≤ bs.length then some (get (Mem.write bs fun _ => 0), bs.drop k) else none

/-- A field of fixed size is read from its bytes, whatever follows. -/
theorem reads_fixed {k : ℕ} {get : Mem → α} {bs : List UInt8} {a : α} (hlen : bs.length = k)
    (hget : ∀ rest, get (Mem.write (bs ++ rest) fun _ => 0) = a) : Reads (fixed k get) bs a := by
  refine ⟨fun rest => ?_, fun pre hpre hne => ?_⟩
  · show (if k ≤ (bs ++ rest).length then _ else none) = _
    rw [if_pos (by rw [List.length_append]; omega), hget, List.drop_left' hlen]
  · show (if k ≤ pre.length then _ else none) = _
    have hlt : pre.length < bs.length :=
      lt_of_le_of_ne hpre.length_le fun heq => hne (hpre.eq_of_length heq)
    rw [if_neg (by omega)]

def byte : Reader UInt8 := fixed 1 fun m => m 0
def chars (n : ℕ) : Reader (Fin n → UInt8) := fixed n fun m => m.chars 0 n
def be16 : Reader UInt16 := fixed 2 fun m => UInt16.ofNat (m.beNat 0 2)
def be32 : Reader UInt32 := fixed 4 fun m => UInt32.ofNat (m.beNat 0 4)
def be64 : Reader UInt64 := fixed 8 fun m => UInt64.ofNat (m.beNat 0 8)
def le16 : Reader UInt16 := fixed 2 fun m => UInt16.ofNat (m.leNat 0 2)
def le32 : Reader UInt32 := fixed 4 fun m => UInt32.ofNat (m.leNat 0 4)
def le64 : Reader UInt64 := fixed 8 fun m => UInt64.ofNat (m.leNat 0 8)

theorem reads_byte (b : UInt8) : Reads byte [b] b := reads_fixed rfl fun _ => rfl

/-- An array of characters is read from its characters. -/
theorem reads_chars {n : ℕ} (f : Fin n → UInt8) : Reads (chars n) (List.ofFn f) f :=
  reads_fixed List.length_ofFn fun rest => chars_write [] f rest _

/-- A number that is written in full is read back. -/
theorem reads_be {k : ℕ} (ofNat : ℕ → α) {n : ℕ} (hn : n < 256 ^ k) :
    Reads (fixed k fun m => ofNat (m.beNat 0 k)) (beBytes k n) (ofNat n) :=
  reads_fixed (length_beBytes k n) fun rest => by
    have hread := beNat_write [] k n rest fun _ => 0
    rw [Nat.mod_eq_of_lt hn] at hread
    exact congrArg ofNat hread

/-- A little-endian number is read from its bytes. -/
theorem reads_le {k : ℕ} (ofNat : ℕ → α) {n : ℕ} (hn : n < 256 ^ k) :
    Reads (fixed k fun m => ofNat (m.leNat 0 k)) (leBytes k n) (ofNat n) :=
  reads_fixed (length_leBytes k n) fun rest => by
    have hread := leNat_write [] k n rest fun _ => 0
    rw [Nat.mod_eq_of_lt hn] at hread
    exact congrArg ofNat hread

theorem reads_be32 (n : UInt32) : Reads be32 (beBytes 4 n.toNat) n := by
  have h := reads_be (k := 4) UInt32.ofNat n.toNat_lt
  rwa [UInt32.ofNat_toNat] at h

theorem reads_be64 (n : UInt64) : Reads be64 (beBytes 8 n.toNat) n := by
  have h := reads_be (k := 8) UInt64.ofNat n.toNat_lt
  rwa [UInt64.ofNat_toNat] at h

theorem reads_le16 (n : UInt16) : Reads le16 (leBytes 2 n.toNat) n := by
  have h := reads_le (k := 2) UInt16.ofNat n.toNat_lt
  rwa [UInt16.ofNat_toNat] at h

theorem reads_le32 (n : UInt32) : Reads le32 (leBytes 4 n.toNat) n := by
  have h := reads_le (k := 4) UInt32.ofNat n.toNat_lt
  rwa [UInt32.ofNat_toNat] at h

theorem reads_le64 (n : UInt64) : Reads le64 (leBytes 8 n.toNat) n := by
  have h := reads_le (k := 8) UInt64.ofNat n.toNat_lt
  rwa [UInt64.ofNat_toNat] at h

/-- A value of an enumeration, by its code. -/
def choice (values : List α) (code : α → UInt8) : Reader α := do
  let b ← byte
  StateT.lift (values.find? fun a => code a = b)

/-- An enumeration is read from its code, if no value before it has the same. -/
theorem reads_choice {values : List α} {code : α → UInt8} {a : α}
    (h : values.find? (fun b => code b = code a) = some a) : Reads (choice values code) [code a] a := by
  refine ⟨fun rest => ?_, fun pre hpre hne => ?_⟩
  · rw [choice, StateT.run_bind, (reads_byte _).run]
    show (StateT.lift (values.find? fun b => code b = code a) : Reader α).run rest = _
    rw [h]
    rfl
  · rw [choice, StateT.run_bind, (reads_byte _).short pre hpre hne]
    rfl

/-! ## Streams -/

/-- The messages that can be read from the front of some bytes, `n` at most, and what is left. -/
def drain (r : Reader α) : ℕ → List UInt8 → List α × List UInt8
  | 0, bs => ([], bs)
  | n + 1, bs =>
    match r.run bs with
    | none => ([], bs)
    | some (a, rest) => (a :: (drain r n rest).1, (drain r n rest).2)

/-- What has been read of a stream, and the bytes that have arrived of the next message. -/
structure Feed (α : Type) where
  messages : List α
  buffered : List UInt8

/-- More of the stream arrives. -/
def Feed.receive (r : Reader α) (s : Feed α) (chunk : List UInt8) : Feed α :=
  let arrived := s.buffered ++ chunk
  { messages := s.messages ++ (drain r arrived.length arrived).1
    buffered := (drain r arrived.length arrived).2 }

/-- A stream that has arrived in chunks. -/
def readChunks (r : Reader α) (chunks : List (List UInt8)) : Feed α :=
  Machine.run (Feed.receive r) { messages := [], buffered := [] } chunks

/-- Nothing, or a part of the first message. -/
def Unfinished (encode : α → List UInt8) (as : List α) (bs : List UInt8) : Prop :=
  bs = [] ∨ ∃ a ∈ as.head?, bs <+: encode a ∧ bs ≠ encode a

/-- The messages that have arrived in full have been read. -/
structure Feed.ReadUpTo (encode : α → List UInt8) (as : List α) (arrived : List UInt8) (s : Feed α) :
    Prop where
  split : arrived = (s.messages.map encode).flatten ++ s.buffered
  rest : ∃ rest, as = s.messages ++ rest ∧ Unfinished encode rest s.buffered

section Feed

variable {r : Reader α} {encode : α → List UInt8}

/-- What can be read is something, if nothing can be read from nothing. -/
theorem Reads.ne_nil {bs : List UInt8} {a : α} (h : Reads r bs a) (hempty : r.run [] = none) :
    bs ≠ [] := by
  rintro rfl
  cases hempty.symm.trans (h.run [])

/-- What is drained from a part of an encoded stream is a part of what was encoded, and what is left over
is the beginning of the next value. -/
theorem drain_eq (hr : ∀ a, Reads r (encode a) a) (hempty : r.run [] = none) {as : List α}
    {bs : List UInt8} {n : ℕ} (hn : bs.length ≤ n) (hbs : bs <+: (as.map encode).flatten) :
    ∃ rest, as = (drain r n bs).1 ++ rest ∧ Unfinished encode rest (drain r n bs).2 ∧
      bs = ((drain r n bs).1.map encode).flatten ++ (drain r n bs).2 := by
  have hnone : ∀ {n bs}, r.run bs = none → drain r n bs = ([], bs) := by
    rintro (_ | n) bs h
    · rfl
    · rw [drain, h]
  induction as generalizing bs n with
  | nil =>
    obtain rfl := List.prefix_nil.mp hbs
    rw [hnone hempty]
    exact ⟨[], rfl, .inl rfl, rfl⟩
  | cons a as ih =>
    rw [List.map_cons, List.flatten_cons] at hbs
    rcases part_append hbs with ⟨hfirst, hpart⟩ | ⟨behind, rfl, hbehind⟩
    · rw [hnone ((hr a).short bs hfirst hpart)]
      exact ⟨a :: as, rfl, .inr ⟨a, rfl, hfirst, hpart⟩, rfl⟩
    · have hpos := List.length_pos_iff.mpr ((hr a).ne_nil hempty)
      rw [List.length_append] at hn
      obtain ⟨n, rfl⟩ := Nat.exists_eq_add_of_le' (show 1 ≤ n by omega)
      have hdrain : drain r (n + 1) (encode a ++ behind) =
          (a :: (drain r n behind).1, (drain r n behind).2) := by
        rw [drain, (hr a).run]
      obtain ⟨rest, has, hrest, hbehind'⟩ := ih (n := n) (by omega) hbehind
      rw [hdrain]
      refine ⟨rest, congrArg (a :: ·) has, hrest, ?_⟩
      rw [List.map_cons, List.flatten_cons, List.append_assoc, ← hbehind']

/-- A chunk keeps a feed read up to what has arrived. -/
theorem Feed.ReadUpTo.receive (hr : ∀ a, Reads r (encode a) a) (hempty : r.run [] = none)
    {as : List α} {arrived chunk : List UInt8} {s : Feed α} (h : s.ReadUpTo encode as arrived)
    (hchunk : arrived ++ chunk <+: (as.map encode).flatten) :
    (s.receive r chunk).ReadUpTo encode as (arrived ++ chunk) := by
  obtain ⟨rest, has, -⟩ := h.rest
  have hrest : s.buffered ++ chunk <+: (rest.map encode).flatten := by
    rw [h.split, has, List.map_append, List.flatten_append, List.append_assoc] at hchunk
    exact (List.prefix_append_right_inj _).mp hchunk
  obtain ⟨rest', hrest', hunfinished, hsplit⟩ := drain_eq hr hempty (Nat.le_refl _) hrest
  refine ⟨?_, rest', ?_, hunfinished⟩
  · rw [h.split, List.append_assoc, hsplit, ← List.append_assoc, ← List.flatten_append,
      ← List.map_append]
    rfl
  · show as = (s.messages ++ _) ++ rest'
    rw [List.append_assoc, ← hrest', has]

/-- Wherever the stream of some messages is cut into chunks, the messages that have arrived
in full have been read, in their order, and what is left is part of the next one. -/
theorem readUpTo_readChunks (hr : ∀ a, Reads r (encode a) a) (hempty : r.run [] = none) {as : List α}
    {chunks : List (List UInt8)} (hchunks : chunks.flatten <+: (as.map encode).flatten) :
    (readChunks r chunks).ReadUpTo encode as chunks.flatten := by
  induction chunks using List.reverseRecOn with
  | nil => exact ⟨rfl, as, rfl, .inl rfl⟩
  | append_singleton chunks chunk ih =>
    rw [List.flatten_append, List.flatten_singleton] at hchunks ⊢
    rw [readChunks, Machine.run_append]
    exact (ih ((List.prefix_append _ _).trans hchunks)).receive hr hempty hchunks

/-- A whole stream has been read to its last message. -/
theorem Feed.ReadUpTo.messages_eq (hr : ∀ a, Reads r (encode a) a) (hempty : r.run [] = none)
    {as : List α} {s : Feed α} (h : s.ReadUpTo encode as (as.map encode).flatten) : s.messages = as := by
  obtain ⟨rest, has, hrest⟩ := h.rest
  have hsplit := h.split
  have hbuffered : (rest.map encode).flatten = s.buffered := by
    have hall : (as.map encode).flatten =
        (s.messages.map encode).flatten ++ (rest.map encode).flatten := by
      rw [← List.flatten_append, ← List.map_append, ← has]
    exact List.append_cancel_left (hall.symm.trans hsplit)
  cases rest with
  | nil => rw [has, List.append_nil]
  | cons a rest =>
    rw [List.map_cons, List.flatten_cons] at hbuffered
    rcases hrest with hnil | ⟨b, hb, hpre, hpart⟩
    · rw [hnil, List.append_eq_nil_iff] at hbuffered
      exact absurd hbuffered.1 ((hr a).ne_nil hempty)
    · obtain rfl := Option.some.inj hb
      refine absurd (hpre.eq_of_length ?_) hpart
      have hle := hpre.length_le
      rw [← hbuffered, List.length_append] at hle ⊢
      omega

end Feed

end Wire
