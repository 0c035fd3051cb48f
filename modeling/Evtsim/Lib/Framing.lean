import Evtsim.Lib.Wire
import Mathlib.Data.List.GetD

/-!
# Reading a stream of length-prefixed packets

`frames` is the loop that walks over one received buffer by the length each packet states, and
`handled` collects what it hands on over several reads. The loop keeps nothing between reads, so a
read is decoded from its own start. `handled_eq_iff` says exactly when this loses nothing: when every
read consists of whole packets.
-/

namespace Wire

/-! ## Parts of a memory -/

/-- Two moves of the start add up. -/
theorem Mem.at_at (m : Mem) (a b : ℕ) : (m.at a).at b = m.at (a + b) := by
  funext i
  show m (a + (b + i)) = m (a + b + i)
  rw [Nat.add_assoc]

@[simp] theorem Mem.at_zero (m : Mem) : m.at 0 = m := by
  funext i
  show m (0 + i) = m i
  rw [Nat.zero_add]

@[simp] theorem Mem.length_take (m : Mem) (n : ℕ) : (m.take n).length = n := by
  rw [Mem.take, List.length_map, List.length_range]

/-- The first `a + b` bytes in two parts. -/
theorem Mem.take_add (m : Mem) (a b : ℕ) : m.take (a + b) = m.take a ++ (m.at a).take b := by
  unfold Mem.take
  rw [List.range_add, List.map_append, List.map_map]
  rfl

/-- The bytes written at the start are the bytes found there. -/
theorem Mem.take_write (bs : List UInt8) (m : Mem) : (Mem.write bs m).take bs.length = bs := by
  apply List.ext_getElem
  · rw [Mem.length_take]
  · intro i _ hi
    simp [Mem.take, Mem.write, hi]

/-- A memory starts with its own first bytes. -/
theorem Mem.write_take_apply (m m' : Mem) {k i : ℕ} (hi : i < k) : Mem.write (m.take k) m' i = m i := by
  have hlt : i < (m.take k).length := by rwa [Mem.length_take]
  show (m.take k).getD i _ = m i
  rw [List.getD_eq_getElem _ _ hlt]
  simp [Mem.take]

/-- Writing back what stands there changes nothing. -/
@[simp] theorem Mem.write_take (m : Mem) (k : ℕ) : Mem.write (m.take k) m = m := by
  funext i
  by_cases hi : i < k
  · exact Mem.write_take_apply m m hi
  · refine List.getD_eq_default _ _ ?_
    rw [Mem.length_take]
    exact Nat.le_of_not_lt hi

/-- Behind the first of two writings stands the second. -/
theorem Mem.at_write_append (bs cs : List UInt8) (m : Mem) :
    (Mem.write (bs ++ cs) m).at bs.length = Mem.write cs (m.at bs.length) := by
  funext i
  show (bs ++ cs).getD (bs.length + i) _ = cs.getD i _
  rw [List.getD_append_right _ _ _ _ (Nat.le_add_right ..), Nat.add_sub_cancel_left]
  rfl

/-- The front part of a written text may be written again. -/
theorem Mem.write_append (bs cs : List UInt8) (m : Mem) :
    Mem.write (bs ++ cs) m = Mem.write bs (Mem.write (bs ++ cs) m) := by
  funext i
  by_cases hi : i < bs.length
  · show (bs ++ cs).getD i _ = bs.getD i _
    rw [List.getD_append _ _ _ _ hi, List.getD_eq_getElem _ _ hi, List.getD_eq_getElem _ _ hi]
  · exact (List.getD_eq_default _ _ (Nat.le_of_not_lt hi)).symm

end Wire

namespace Framing

open Wire

/-- How a packet states its length: `size` reads the first `header` bytes only and is never 0. -/
structure Format where
  header : ℕ
  size : Mem → ℕ
  size_pos : ∀ m, 0 < size m
  size_congr : ∀ {m m' : Mem}, (∀ i, i < header → m i = m' i) → size m = size m'

variable (f : Format)

/-- A packet that holds its header and states its own length. -/
def Format.WellFormed (packet : List UInt8) : Prop :=
  f.header ≤ packet.length ∧ f.size (Mem.write packet fun _ => 0) = packet.length

instance (packet : List UInt8) : Decidable (f.WellFormed packet) :=
  inferInstanceAs (Decidable (_ ∧ _))

/-- The loop over `n` received bytes from `pos` on: where each packet starts and its length. -/
def frames (buf : Mem) (n pos : ℕ) : List (Mem × ℕ) :=
  if pos < n then
    (buf.at pos, f.size (buf.at pos)) :: frames buf n (pos + f.size (buf.at pos))
  else []
termination_by n - pos
decreasing_by
  have := f.size_pos (buf.at pos)
  omega

/-- The bytes of the packets that the loop meets in one buffer. -/
def packets (buf : Mem) (n pos : ℕ) : List (List UInt8) :=
  (frames f buf n pos).map fun p => p.1.take p.2

/-- The packets met over successive reads, each with the memory it has left in the buffer behind it. -/
def handled (reads : List (List UInt8 × Mem)) : List (List UInt8) :=
  reads.flatMap fun r => packets f (Mem.write r.1 r.2) r.1.length 0

variable {f}

/-- One turn of the loop: the packet at `pos`, and the packets behind it. -/
theorem packets_of_lt {buf : Mem} {n pos : ℕ} (h : pos < n) :
    packets f buf n pos =
      (buf.at pos).take (f.size (buf.at pos)) ::
        packets f buf n (pos + f.size (buf.at pos)) := by
  unfold packets
  rw [frames, if_pos h, List.map_cons]

/-- Behind the last byte read the loop ends. -/
theorem packets_of_le {buf : Mem} {n pos : ℕ} (h : n ≤ pos) : packets f buf n pos = [] := by
  unfold packets
  rw [frames, if_neg (Nat.not_lt.mpr h), List.map_nil]

/-- The packets of a buffer follow one another without a gap, and reach its end or beyond. -/
theorem packets_flatten (buf : Mem) (n pos : ℕ) :
    ∃ total, n ≤ pos + total ∧ (packets f buf n pos).flatten = (buf.at pos).take total := by
  by_cases h : pos < n
  · -- the loop moves on by the size of the packet at `pos`
    obtain ⟨total, hn, hrest⟩ := packets_flatten buf n (pos + f.size (buf.at pos))
    refine ⟨f.size (buf.at pos) + total, by omega, ?_⟩
    rw [packets_of_lt h, List.flatten_cons, hrest, Mem.take_add, Mem.at_at]
  · refine ⟨0, Nat.le_of_not_lt h, ?_⟩
    rw [packets_of_le (Nat.le_of_not_lt h)]
    rfl
termination_by n - pos
decreasing_by
  have := f.size_pos (buf.at pos)
  omega

/-- The stated length of a well-formed packet does not depend on what comes after it. -/
theorem Format.WellFormed.size_write {packet : List UInt8} (h : f.WellFormed packet) (m : Mem) :
    f.size (Mem.write packet m) = packet.length := by
  rw [← h.2]
  apply f.size_congr
  intro i hi
  have hlt : i < packet.length := lt_of_lt_of_le hi h.1
  show packet.getD i _ = packet.getD i _
  rw [List.getD_eq_getElem _ _ hlt, List.getD_eq_getElem _ _ hlt]

/-- A buffer that holds whole well-formed packets is decoded into these packets. -/
theorem packets_of_wellFormed {group : List (List UInt8)} (hwf : ∀ p ∈ group, f.WellFormed p)
    {buf m : Mem} {pos : ℕ} (hbuf : buf.at pos = Mem.write group.flatten m) :
    packets f buf (pos + group.flatten.length) pos = group := by
  induction group generalizing pos m with
  | nil => exact packets_of_le (Nat.le_refl pos)
  | cons p group ih =>
    have hp : f.WellFormed p := hwf p List.mem_cons_self
    rw [List.flatten_cons] at hbuf
    have hsize : f.size (buf.at pos) = p.length := by
      rw [hbuf, Mem.write_append]
      exact hp.size_write _
    have hfirst : (buf.at pos).take p.length = p := by
      rw [hbuf, Mem.write_append, Mem.take_write]
    have hnext : buf.at (pos + p.length) = Mem.write group.flatten (m.at p.length) := by
      rw [← Mem.at_at, hbuf, Mem.at_write_append]
    have hpos : 0 < p.length := hsize ▸ f.size_pos _
    have hrest := ih (fun q hq => hwf q (List.mem_cons_of_mem p hq)) hnext
    rw [List.flatten_cons, List.length_append, packets_of_lt (by omega), hsize, hfirst,
      ← Nat.add_assoc, hrest]

/-- The bytes handed on from one read begin with the bytes of the read. -/
theorem length_le_packets (r : List UInt8 × Mem) :
    r.1.length ≤ (packets f (Mem.write r.1 r.2) r.1.length 0).flatten.length := by
  obtain ⟨total, hn, hflat⟩ := packets_flatten (f := f) (Mem.write r.1 r.2) r.1.length 0
  rw [hflat, Mem.length_take]
  omega

/-- A read from which no byte too many was handed on consists of the packets handed on. -/
theorem packets_flatten_of_length {r : List UInt8 × Mem}
    (h : (packets f (Mem.write r.1 r.2) r.1.length 0).flatten.length = r.1.length) :
    (packets f (Mem.write r.1 r.2) r.1.length 0).flatten = r.1 := by
  obtain ⟨total, -, hflat⟩ := packets_flatten (f := f) (Mem.write r.1 r.2) r.1.length 0
  rw [hflat, Mem.length_take] at h
  rw [hflat, h, Mem.at_zero, Mem.take_write]

/-- If no more bytes are handed on over all the reads than were received, then none are handed on too
many from any of them. -/
private theorem length_packets_eq {reads : List (List UInt8 × Mem)}
    (h : (handled f reads).flatten.length ≤ (reads.map Prod.fst).flatten.length) :
    ∀ r ∈ reads, (packets f (Mem.write r.1 r.2) r.1.length 0).flatten.length = r.1.length := by
  induction reads with
  | nil =>
    intro r hr
    cases hr
  | cons r reads ih =>
    simp only [handled, List.flatMap_cons, List.flatten_append, List.map_cons, List.flatten_cons,
      List.length_append] at h
    -- what is handed on from the other reads is at least what they received
    have hall : ∀ l : List (List UInt8 × Mem),
        (l.map Prod.fst).flatten.length ≤ (handled f l).flatten.length := by
      intro l
      induction l with
      | nil => exact Nat.zero_le _
      | cons a l ihl =>
        have ha := length_le_packets (f := f) a
        simp only [handled, List.flatMap_cons, List.flatten_append, List.map_cons,
          List.flatten_cons, List.length_append] at ihl ⊢
        omega
    have hr := length_le_packets (f := f) r
    have hrest := hall reads
    unfold handled at hrest
    intro r' hr'
    rcases List.mem_cons.mp hr' with rfl | hmem
    · omega
    · refine ih ?_ r' hmem
      unfold handled
      omega

/-- **Segmentation.** Well-formed packets that arrive cut into reads are handed on as they were sent
exactly when every read consists of whole packets. -/
theorem handled_eq_iff {sent : List (List UInt8)} (hwf : ∀ p ∈ sent, f.WellFormed p)
    {reads : List (List UInt8 × Mem)} (hcut : (reads.map Prod.fst).flatten = sent.flatten) :
    handled f reads = sent ↔
      ∃ groups : List (List (List UInt8)), groups.flatten = sent ∧
        groups.map List.flatten = reads.map Prod.fst := by
  constructor
  · -- no read has fewer packets than its bytes make up, since all of them do not
    intro h
    refine ⟨reads.map fun r => packets f (Mem.write r.1 r.2) r.1.length 0, ?_, ?_⟩
    · rw [← List.flatMap_def]
      exact h
    · have hlen : (handled f reads).flatten.length ≤ (reads.map Prod.fst).flatten.length := by
        rw [h, hcut]
      rw [List.map_map]
      apply List.map_congr_left
      intro r hr
      exact packets_flatten_of_length (length_packets_eq hlen r hr)
  · rintro ⟨groups, rfl, hgroups⟩
    clear hcut
    induction groups generalizing reads with
    | nil =>
      have hnil : reads = [] := List.map_eq_nil_iff.mp hgroups.symm
      rw [hnil]
      rfl
    | cons group groups ih =>
      -- the first read is handled as the first group
      cases reads with
      | nil => cases hgroups
      | cons r reads =>
        obtain ⟨hr, hrest⟩ := List.cons.inj hgroups
        rw [List.flatten_cons] at hwf ⊢
        have htail := ih hrest fun p hp => hwf p (List.mem_append_right group hp)
        have hhead : packets f (Mem.write group.flatten r.2) (0 + group.flatten.length) 0 = group :=
          packets_of_wellFormed (fun p hp => hwf p (List.mem_append_left _ hp)) (Mem.at_zero _)
        rw [Nat.zero_add] at hhead
        have hr : r.1 = group.flatten := hr.symm
        unfold handled at htail ⊢
        rw [List.flatMap_cons, htail, hr, hhead]

/-! ## Where the packets lie -/

variable (f)

/-- The loop once more: the places at which it finds packets. -/
def starts (buf : Mem) (n pos : ℕ) : List ℕ :=
  if pos < n then pos :: starts buf n (pos + f.size (buf.at pos)) else []
termination_by n - pos
decreasing_by
  have := f.size_pos (buf.at pos)
  omega

/-- The frames are the starts, each with the memory from there on and its size. -/
theorem frames_eq_starts (buf : Mem) (n pos : ℕ) :
    frames f buf n pos = (starts f buf n pos).map fun q => (buf.at q, f.size (buf.at q)) := by
  rw [frames, starts]
  split
  · rw [List.map_cons, frames_eq_starts]
  · rfl
termination_by n - pos
decreasing_by
  have := f.size_pos (buf.at pos)
  omega

variable {f}

/-- In a buffer of whole well-formed packets the loop finds each of them in its place. -/
theorem starts_of_wellFormed {group : List (List UInt8)} (hwf : ∀ p ∈ group, f.WellFormed p)
    {buf m : Mem} {pos : ℕ} (hbuf : buf.at pos = Mem.write group.flatten m) :
    ∀ q ∈ starts f buf (pos + group.flatten.length) pos, ∃ pre p post, group = pre ++ p :: post ∧
      q = pos + pre.flatten.length ∧ f.size (buf.at q) = p.length ∧
        ∃ m', buf.at q = Mem.write p m' := by
  induction group generalizing pos m with
  | nil =>
    intro q hq
    rw [List.flatten_nil, List.length_nil, Nat.add_zero, starts, if_neg (Nat.lt_irrefl pos)] at hq
    exact nomatch hq
  | cons p group ih =>
    have hp : f.WellFormed p := hwf p List.mem_cons_self
    rw [List.flatten_cons] at hbuf
    have hfirst : buf.at pos = Mem.write p (Mem.write (p ++ group.flatten) m) := by
      rw [hbuf, ← Mem.write_append]
    have hsize : f.size (buf.at pos) = p.length := by
      rw [hfirst]
      exact hp.size_write _
    have hnext : buf.at (pos + p.length) = Mem.write group.flatten (m.at p.length) := by
      rw [← Mem.at_at, hbuf, Mem.at_write_append]
    have hpos : 0 < p.length := hsize ▸ f.size_pos _
    intro q hq
    rw [List.flatten_cons, List.length_append, starts, if_pos (by omega), hsize,
      ← Nat.add_assoc] at hq
    rcases List.mem_cons.mp hq with rfl | hq
    · exact ⟨[], p, group, rfl, rfl, hsize, _, hfirst⟩
    · obtain ⟨pre, p', post, hgroup, hq', hrest⟩ :=
        ih (fun q hq => hwf q (List.mem_cons_of_mem p hq)) hnext q hq
      refine ⟨p :: pre, p', post, by rw [hgroup, List.cons_append], ?_, hrest⟩
      rw [hq', List.flatten_cons, List.length_append, Nat.add_assoc]

/-- If every packet ends within the `n` bytes, the packets make them up. -/
theorem packets_of_inside {buf : Mem} {n pos : ℕ} (hpos : pos ≤ n)
    (h : ∀ q ∈ starts f buf n pos, q + f.size (buf.at q) ≤ n) :
    (packets f buf n pos).flatten = (buf.at pos).take (n - pos) := by
  by_cases hlt : pos < n
  · rw [starts, if_pos hlt] at h
    have hfirst := h pos List.mem_cons_self
    have hrest := packets_of_inside hfirst fun q hq => h q (List.mem_cons_of_mem pos hq)
    have hsplit : n - pos = f.size (buf.at pos) + (n - (pos + f.size (buf.at pos))) := by omega
    rw [packets_of_lt hlt, List.flatten_cons, hrest, hsplit, Mem.take_add, Mem.at_at]
  · have hnone : n - pos = 0 := by omega
    rw [packets_of_le (Nat.le_of_not_lt hlt), hnone]
    rfl
termination_by n - pos
decreasing_by
  have := f.size_pos (buf.at pos)
  omega

/-- The last packet reaches the end of the bytes. -/
theorem getLast_packets {buf : Mem} {n pos : ℕ} {p : List UInt8}
    (hp : p ∈ (packets f buf n pos).getLast?) :
    ∃ q ∈ starts f buf n pos, p = (buf.at q).take (f.size (buf.at q)) ∧
      n ≤ q + f.size (buf.at q) := by
  by_cases hlt : pos < n
  · rw [packets_of_lt hlt] at hp
    rw [starts, if_pos hlt]
    by_cases hmore : pos + f.size (buf.at pos) < n
    · have hne : packets f buf n (pos + f.size (buf.at pos)) ≠ [] := by
        rw [packets_of_lt hmore]
        exact List.cons_ne_nil _ _
      rw [List.getLast?_cons_of_ne_nil hne] at hp
      obtain ⟨q, hq, hpq⟩ := getLast_packets hp
      exact ⟨q, List.mem_cons_of_mem pos hq, hpq⟩
    · rw [packets_of_le (Nat.le_of_not_lt hmore)] at hp
      exact ⟨pos, List.mem_cons_self, (Option.mem_some.mp hp).symm, Nat.le_of_not_lt hmore⟩
  · rw [packets_of_le (Nat.le_of_not_lt hlt)] at hp
    exact nomatch hp
termination_by n - pos
decreasing_by
  have := f.size_pos (buf.at pos)
  omega

end Framing
